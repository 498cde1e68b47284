import LlamaCpp.Common.ReasoningBudget
import Mathlib.Data.List.Induction
import Mathlib.Order.Nat

/-!
# Finding the start and the end sequence

On a mismatch the matcher goes back to the first token of its pattern, or behind it, and
forgets a longer beginning of the pattern that the tokens still end with.
-/

set_option autoImplicit false

namespace LlamaCpp.Common

open List

inductive MatcherCall
  | advance (token : Token)
  | reset

structure Watched where
  matcher : TokenMatcher
  since : List Token

def Watched.call (watched : Watched) : MatcherCall → Watched
  | .advance token =>
    let found := watched.matcher.advance token
    ⟨found.2, if found.1 then [] else watched.since ++ [token]⟩
  | .reset => ⟨watched.matcher.reset, []⟩

def watch (pattern : List Token) (calls : List MatcherCall) : Watched :=
  calls.foldl Watched.call ⟨⟨pattern, 0⟩, []⟩

def FindsAll (pattern : List Token) : Prop :=
  ∀ calls token, ((watch pattern calls).matcher.advance token).1 = true ↔
    pattern <:+ (watch pattern calls).since ++ [token]

def ForkFree (pattern : List Token) : Prop :=
  ∀ b k, 0 < b → b < k → k < pattern.length → pattern.take b <:+ pattern.take k →
    pattern[b]? = pattern[k]?

variable {pattern since : List Token} {token : Token} {pos k : Nat}

theorem advance_hit (some_ : pattern ≠ []) (here : pattern[pos]? = some token)
    (last : pattern.length ≤ pos + 1) :
    TokenMatcher.advance ⟨pattern, pos⟩ token = (true, ⟨pattern, 0⟩) := by
  simp [TokenMatcher.advance, some_, here, last]

theorem advance_next (some_ : pattern ≠ []) (here : pattern[pos]? = some token)
    (more : pos + 1 < pattern.length) :
    TokenMatcher.advance ⟨pattern, pos⟩ token = (false, ⟨pattern, pos + 1⟩) := by
  simp [TokenMatcher.advance, some_, here, more]

theorem advance_miss (some_ : pattern ≠ []) (other : pattern[pos]? ≠ some token) :
    TokenMatcher.advance ⟨pattern, pos⟩ token =
      (false, ⟨pattern, if pattern[0]? = some token then 1 else 0⟩) := by
  simp only [TokenMatcher.advance, if_neg some_, if_neg other]
  split <;> rfl

theorem advance_le (some_ : pattern ≠ []) (pos : Nat) (token : Token) :
    ∃ hit next, TokenMatcher.advance ⟨pattern, pos⟩ token = (hit, ⟨pattern, next⟩) ∧
      next ≤ pos + 1 ∧ (hit = true → pattern.length ≤ pos + 1) := by
  by_cases here : pattern[pos]? = some token
  · by_cases last : pattern.length ≤ pos + 1
    · exact ⟨_, _, advance_hit some_ here last, by omega, fun _ => last⟩
    · exact ⟨_, _, advance_next some_ here (not_le.mp last), le_refl _, nofun⟩
  · refine ⟨_, _, advance_miss some_ here, ?_, nofun⟩
    split <;> omega

/-- The position is the longest beginning of the pattern that the tokens end with. -/
structure Longest (pattern since : List Token) (pos : Nat) : Prop where
  inside : pos < pattern.length
  ends : pattern.take pos <:+ since
  longest : ∀ j < pattern.length, pattern.take j <:+ since → j ≤ pos

theorem take_succ_isSuffix (inside : k < pattern.length) :
    pattern.take (k + 1) <:+ since ++ [token] ↔
      pattern.take k <:+ since ∧ pattern[k]? = some token := by
  rw [take_succ_eq_append_getElem inside, getElem?_eq_getElem inside, Option.some.injEq]
  constructor
  · rintro ⟨front, same⟩
    rw [← append_assoc] at same
    obtain ⟨whole, last⟩ := append_inj' same rfl
    exact ⟨⟨front, whole⟩, by simpa using last⟩
  · rintro ⟨⟨front, whole⟩, rfl⟩
    exact ⟨front, by rw [← append_assoc, whole]⟩

theorem Longest.hit_iff (at_ : Longest pattern since pos) (some_ : pattern ≠ []) :
    (TokenMatcher.advance ⟨pattern, pos⟩ token).1 = true ↔ pattern <:+ since ++ [token] := by
  have inside := at_.inside
  obtain ⟨n, size⟩ : ∃ n, pattern.length = n + 1 := ⟨pattern.length - 1, by omega⟩
  have whole : pattern.take (n + 1) = pattern := take_of_length_le size.le
  have ends := @take_succ_isSuffix pattern since token n (by omega)
  rw [whole] at ends
  rw [ends]
  constructor
  · intro hit
    by_cases here : pattern[pos]? = some token
    · by_cases last : pattern.length ≤ pos + 1
      · obtain rfl : pos = n := by omega
        exact ⟨at_.ends, here⟩
      · rw [advance_next some_ here (not_le.mp last)] at hit
        cases hit
    · rw [advance_miss some_ here] at hit
      cases hit
  · rintro ⟨before, here⟩
    obtain rfl : pos = n := le_antisymm (by omega) (at_.longest n (by omega) before)
    rw [advance_hit some_ here (by omega)]

theorem longest_nil (some_ : pattern ≠ []) : Longest pattern [] 0 := by
  refine ⟨length_pos_iff.mpr some_, nil_suffix, fun j inside ends => ?_⟩
  have short := ends.length_le
  rw [length_take_of_le inside.le] at short
  exact short

theorem Longest.call (forkFree : ForkFree pattern) (some_ : pattern ≠ [])
    (at_ : Longest pattern since pos) (call : MatcherCall) : ∃ next since',
      Watched.call ⟨⟨pattern, pos⟩, since⟩ call = ⟨⟨pattern, next⟩, since'⟩ ∧
        Longest pattern since' next := by
  cases call with
  | reset => exact ⟨0, [], rfl, longest_nil some_⟩
  | advance token =>
    unfold Watched.call
    dsimp only
    by_cases here : pattern[pos]? = some token
    · by_cases last : pattern.length ≤ pos + 1
      · rw [advance_hit some_ here last]
        exact ⟨0, [], rfl, longest_nil some_⟩
      · rw [advance_next some_ here (not_le.mp last)]
        refine ⟨pos + 1, _, rfl, not_le.mp last,
          (take_succ_isSuffix at_.inside).mpr ⟨at_.ends, here⟩, fun j inside ends => ?_⟩
        cases j with
        | zero => exact Nat.zero_le _
        | succ j =>
          have before := ((take_succ_isSuffix (by omega)).mp ends).1
          exact Nat.succ_le_succ (at_.longest j (by omega) before)
    · rw [advance_miss some_ here]
      -- a beginning that goes on with the token is empty, as the pattern does not fork
      have start : ∀ j, j + 1 < pattern.length → pattern.take (j + 1) <:+ since ++ [token] →
          j = 0 ∧ pattern[0]? = some token := by
        intro j inside ends
        obtain ⟨before, next⟩ := (take_succ_isSuffix (by omega)).mp ends
        have le := at_.longest j (by omega) before
        by_cases zero : j = 0
        · exact ⟨zero, zero ▸ next⟩
        · have less : j < pos := lt_of_le_of_ne le fun same => here (same ▸ next)
          have inner := suffix_of_suffix_length_le before at_.ends (by simp; omega)
          rw [forkFree j pos (Nat.pos_of_ne_zero zero) less at_.inside inner] at next
          exact absurd next here
      refine ⟨_, _, rfl, ?_⟩
      by_cases first : pattern[0]? = some token
      · rw [if_pos first]
        have later : pos ≠ 0 := fun zero => here (zero ▸ first)
        have inside := at_.inside
        refine ⟨by omega, (take_succ_isSuffix (by omega)).mpr ⟨nil_suffix, first⟩, fun j inside ends => ?_⟩
        cases j with
        | zero => exact Nat.zero_le _
        | succ j => exact Nat.succ_le_succ (start j inside ends).1.le
      · rw [if_neg first]
        refine ⟨length_pos_iff.mpr some_, nil_suffix, fun j inside ends => ?_⟩
        cases j with
        | zero => exact le_refl _
        | succ j => exact absurd (start j inside ends).2 first

theorem advance_short (some_ : pattern ≠ []) (tokens : List Token) (pos : Nat)
    (short : pos + tokens.length < pattern.length) :
    ∃ next ≤ pos + tokens.length, (tokens.map MatcherCall.advance).foldl Watched.call
      ⟨⟨pattern, pos⟩, since⟩ = ⟨⟨pattern, next⟩, since ++ tokens⟩ := by
  induction tokens generalizing pos since with
  | nil => exact ⟨pos, le_refl _, by simp⟩
  | cons token tokens ih =>
    rw [length_cons] at short ⊢
    obtain ⟨hit, next, advanced, le, last⟩ := advance_le some_ pos token
    have missed : hit = false := by
      cases hit with
      | false => rfl
      | true => have := last rfl; omega
    obtain ⟨next', le', run⟩ := @ih (since ++ [token]) next (by omega)
    refine ⟨next', by omega, ?_⟩
    rw [map_cons, foldl_cons, Watched.call, advanced, missed]
    simpa using run

theorem watch_take (k : Nat) (inside : k < pattern.length) :
    watch pattern ((pattern.take k).map .advance) = ⟨⟨pattern, k⟩, pattern.take k⟩ := by
  have some_ : pattern ≠ [] := length_pos_iff.mp (by omega)
  induction k with
  | zero => rfl
  | succ k ih =>
    rw [take_succ_eq_append_getElem (by omega), map_append, watch, foldl_append, ← watch,
      ih (by omega), map_singleton, foldl_cons, Watched.call,
      advance_next some_ (getElem?_eq_getElem (by omega)) inside]
    rfl

/-- The matcher finds every occurrence exactly when the pattern does not fork. -/
theorem findsAll_iff (some_ : pattern ≠ []) : FindsAll pattern ↔ ForkFree pattern := by
  constructor
  · intro finds b k positive less inside ends
    by_contra fork
    have inRange : b < pattern.length := by omega
    have here := getElem?_eq_getElem inRange
    have behind : pattern.drop (b + 1) ≠ [] := by
      rw [← length_pos_iff, length_drop]
      omega
    let rest := (pattern.drop (b + 1)).dropLast
    have size : rest.length = pattern.length - b - 2 := by
      simp only [rest, length_dropLast, length_drop]
      omega
    -- the longer beginning, and then what follows the shorter one
    have missed := @advance_miss pattern pattern[b] k some_
      (here ▸ Ne.symm fork)
    obtain ⟨pos, le, run⟩ := @advance_short pattern (pattern.take k ++ [pattern[b]]) some_
      rest (if pattern[0]? = some pattern[b] then 1 else 0) (by split <;> omega)
    have state : watch pattern ((pattern.take k).map .advance ++
        .advance pattern[b] :: rest.map .advance) =
          ⟨⟨pattern, pos⟩, pattern.take k ++ [pattern[b]] ++ rest⟩ := by
      rw [watch, foldl_append, ← watch, watch_take k inside, foldl_cons, Watched.call, missed]
      exact run
    have found := finds ((pattern.take k).map .advance ++
      .advance pattern[b] :: rest.map .advance) ((pattern.drop (b + 1)).getLast behind)
    rw [state] at found
    have whole : pattern <:+ pattern.take k ++ [pattern[b]] ++ rest ++
        [(pattern.drop (b + 1)).getLast behind] := by
      obtain ⟨front, same⟩ := ends
      refine ⟨front, ?_⟩
      rw [append_assoc _ rest, dropLast_append_getLast, append_assoc, singleton_append,
        ← drop_eq_getElem_cons, ← same, append_assoc, take_append_drop]
    obtain ⟨hit, next, advanced, -, last⟩ := advance_le some_ pos
      ((pattern.drop (b + 1)).getLast behind)
    rw [advanced] at found
    have := last (found.mpr whole)
    split at le <;> omega
  · intro forkFree calls token
    have run : ∃ pos since, watch pattern calls = ⟨⟨pattern, pos⟩, since⟩ ∧
        Longest pattern since pos := by
      induction calls using reverseRecOn with
      | nil => exact ⟨0, [], rfl, longest_nil some_⟩
      | append_singleton calls call ih =>
        obtain ⟨pos, since, state, at_⟩ := ih
        rw [watch, foldl_append, ← watch, state]
        exact at_.call forkFree some_ call
    obtain ⟨pos, since, state, at_⟩ := run
    rw [state]
    exact at_.hit_iff some_

theorem findsAll_iff_at_twice : FindsAll [7, 7] ↔ ForkFree [7, 7] :=
  findsAll_iff (by decide)

/-- The pattern stands at the end of 1 1 1 2, where the matcher has gone back to the third 1. -/
theorem overlap_missed : ¬ ∀ pattern, pattern ≠ [] → FindsAll pattern := by
  intro claimed
  have found := claimed [1, 1, 2] (by decide) ([1, 1, 1].map .advance) 2
  exact absurd (found.mpr ⟨[1], rfl⟩) (by decide)

end LlamaCpp.Common
