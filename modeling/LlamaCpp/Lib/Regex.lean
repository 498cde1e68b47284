import Mathlib.Data.List.Induction
import Mathlib.Data.List.TakeWhile
import Mathlib.Algebra.GroupWithZero.Nat

/-!
# Leftmost-first matching

A regular expression over classes of characters, with ordered alternatives and greedy repetition
of classes.  A match is the length of a prefix; the matches of an expression are listed in the order
in which a backtracking matcher comes to them, so the first one is what it finds.
-/

set_option autoImplicit false

namespace LlamaCpp.Lib

open List Option

section

variable {χ : Type*}

def countRun (test : χ → Bool) (xs : List χ) : Nat := (xs.takeWhile test).length

theorem countRun_cons (test : χ → Bool) (x : χ) (xs : List χ) :
    countRun test (x :: xs) = if test x then countRun test xs + 1 else 0 := by
  rw [countRun, takeWhile_cons]
  split <;> rfl

theorem countRun_cons_eq_zero {test : χ → Bool} {x : χ} {xs : List χ} :
    countRun test (x :: xs) = 0 ↔ test x = false := by
  rw [countRun_cons]
  simp

theorem countRun_le (test : χ → Bool) (xs : List χ) : countRun test xs ≤ xs.length :=
  ( takeWhile_prefix test).length_le

theorem countRun_pos {test : χ → Bool} {xs : List χ} :
    0 < countRun test xs ↔ xs.head?.any test = true := by
  cases xs with
  | nil => simp [countRun]
  | cons x rest =>
    rw [countRun_cons, List.head?_cons]
    split
    · rename_i passes
      exact iff_of_true (Nat.succ_pos _) passes
    · rename_i fails
      exact iff_of_false (lt_irrefl 0) fails

def holdsAt (test : χ → Bool) (xs : List χ) (i : Nat) : Bool := xs[i]?.any test

theorem head?_drop_any (test : χ → Bool) (xs : List χ) (i : Nat) :
    (xs.drop i).head?.any test = holdsAt test xs i := by
  rw [List.head?_drop, holdsAt]

theorem countRun_drop_pos {test : χ → Bool} {xs : List χ} {i : Nat} :
    0 < countRun test (xs.drop i) ↔ holdsAt test xs i = true := by
  rw [countRun_pos, head?_drop_any]

theorem holdsAt_drop (test : χ → Bool) (xs : List χ) (i j : Nat) :
    holdsAt test (xs.drop i) j = holdsAt test xs (i + j) := by
  rw [holdsAt, List.getElem?_drop, holdsAt]

theorem holdsAt_mono {test other : χ → Bool} (within : ∀ x, test x = true → other x = true)
    {xs : List χ} {i : Nat} (holds : holdsAt test xs i = true) : holdsAt other xs i = true := by
  obtain ⟨x, here, passes⟩ := (any_eq_true _ _).mp holds
  exact (any_eq_true _ _).mpr ⟨x, here, within x passes⟩

theorem holdsAt_of_lt {test : χ → Bool} {xs : List χ} {j : Nat} (inside : j < countRun test xs) :
    holdsAt test xs j = true := by
  have short := lt_of_lt_of_le inside (countRun_le test xs)
  rw [holdsAt, List.getElem?_eq_getElem short]
  have taken := mem_takeWhile_imp (getElem_mem inside)
  rwa [( takeWhile_prefix test).getElem inside] at taken

theorem drop_countRun (test : χ → Bool) (xs : List χ) :
    xs.drop (countRun test xs) = xs.dropWhile test := by
  induction xs with
  | nil => rfl
  | cons x rest ih =>
    rw [countRun_cons, dropWhile_cons]
    split
    · exact ih
    · rfl

theorem any_head?_dropWhile (test : χ → Bool) (xs : List χ) :
    (xs.dropWhile test).head?.any test = false := by
  have fails := List.head?_dropWhile_not test xs
  cases here : (xs.dropWhile test).head? with
  | none => rfl
  | some x =>
    rw [here] at fails
    simpa using fails

theorem not_holdsAt_countRun (test : χ → Bool) (xs : List χ) :
    holdsAt test xs (countRun test xs) = false := by
  rw [← head?_drop_any, drop_countRun]
  exact any_head?_dropWhile test xs

theorem le_countRun {test : χ → Bool} {xs : List χ} {n : Nat}
    (holds : ∀ i < n, holdsAt test xs i = true) : n ≤ countRun test xs := by
  by_contra short
  have stops := not_holdsAt_countRun test xs
  rw [holds _ (Nat.lt_of_not_le short)] at stops
  contradiction

theorem takeWhile_eq_take (test : χ → Bool) (xs : List χ) :
    xs.takeWhile test = xs.take (countRun test xs) :=
  prefix_iff_eq_take.mp ( takeWhile_prefix test)

theorem holdsAt_take {test : χ → Bool} {xs : List χ} {i n : Nat} (inside : i < n) :
    holdsAt test (xs.take n) i = holdsAt test xs i := by
  rw [holdsAt, List.getElem?_take_of_lt inside, holdsAt]

theorem forall_mem_iff {test : χ → Bool} {xs : List χ} :
    (∀ x ∈ xs, test x = true) ↔ ∀ i < xs.length, holdsAt test xs i = true := by
  constructor
  · intro all i inside
    rw [holdsAt, List.getElem?_eq_getElem inside]
    exact all _ (getElem_mem inside)
  · intro all x member
    obtain ⟨i, inside, rfl⟩ := getElem_of_mem member
    have here := all i inside
    rwa [holdsAt, List.getElem?_eq_getElem inside] at here

theorem countRun_eq_zero {test : χ → Bool} {xs : List χ} (stops : xs.head?.any test = false) :
    countRun test xs = 0 := by
  refine Nat.eq_zero_of_not_pos fun some_ => ?_
  rw [countRun_pos.mp some_] at stops
  contradiction

theorem countRun_drop {test : χ → Bool} {xs : List χ} {j : Nat} (inside : j ≤ countRun test xs) :
    countRun test (xs.drop j) = countRun test xs - j := by
  induction xs generalizing j with
  | nil =>
    rw [drop_nil]
    exact (Nat.zero_sub j).symm
  | cons x rest ih =>
    cases j with
    | zero => rfl
    | succ j =>
      rw [countRun_cons] at inside ⊢
      split at inside
      · rename_i passes
        rw [drop_succ_cons, ih (Nat.le_of_succ_le_succ inside), if_pos passes,
          Nat.add_sub_add_right]
      · contradiction

theorem exists_last (test : χ → Bool) (xs : List χ) : ∃ kept behind, xs = kept ++ behind ∧
    (∀ x ∈ behind, test x = false) ∧
    kept.length = xs.length - countRun (fun x => !test x) xs.reverse ∧
    (kept = [] ∨ ∃ front x, kept = front ++ [x] ∧ test x = true) := by
  induction xs using List.reverseRecOn with
  | nil => exact ⟨[], [], rfl, by simp, rfl, .inl rfl⟩
  | append_singleton xs x ih =>
    rw [reverse_append, reverse_singleton, singleton_append, countRun]
    by_cases here : test x = true
    · refine ⟨xs ++ [x], [], (append_nil _).symm, by simp, ?_, .inr ⟨xs, x, rfl, here⟩⟩
      simp [here]
    · obtain ⟨kept, behind, split, none_, length, ends⟩ := ih
      rw [Bool.not_eq_true] at here
      refine ⟨kept, behind ++ [x], by rw [split, append_assoc], ?_, ?_, ends⟩
      · intro y member
        rcases mem_append.mp member with inside | isLast
        · exact none_ y inside
        · rw [mem_singleton.mp isLast, here]
      · rw [length, countRun]
        simp [here]

inductive Regex (χ : Type*)
  | empty
  | one (test : χ → Bool)
  | seq (first second : Regex χ)
  | alt (first second : Regex χ)
  /-- A greedy repetition of a class, with the least and the greatest number of times. -/
  | rep (test : χ → Bool) (least : Nat) (most : Option Nat)
  /-- A negative lookahead for a class. -/
  | notAhead (test : χ → Bool)

def countdown (least : Nat) : Nat → List Nat
  | 0 => if least = 0 then [0] else []
  | n + 1 => if least ≤ n + 1 then (n + 1) :: countdown least n else []

namespace Regex

def ends : Regex χ → List χ → List Nat
  | empty, _ => [0]
  | one test, xs => if xs.head?.any test then [1] else []
  | seq first second, xs =>
    (first.ends xs).flatMap fun n => (second.ends (xs.drop n)).map (n + ·)
  | alt first second, xs => first.ends xs ++ second.ends xs
  | rep test least most, xs =>
    countdown least (match most with
      | some bound => min bound (countRun test xs)
      | none => countRun test xs)
  | notAhead test, xs => if xs.head?.any test then [] else [0]

def firstMatch (r : Regex χ) (xs : List χ) : Option Nat := (r.ends xs).head?

def opt (r : Regex χ) : Regex χ := alt r empty

def star (test : χ → Bool) : Regex χ := rep test 0 none

def plus (test : χ → Bool) : Regex χ := rep test 1 none

def literal : List (χ → Bool) → Regex χ
  | [] => empty
  | test :: rest => seq (one test) (literal rest)

def splitGaps (r : Regex χ) : Nat → Nat → List χ → List Nat
  | _, gap, [] => if 0 < gap then [gap] else []
  | 0, _, _ => []
  | fuel + 1, gap, x :: rest =>
    match r.firstMatch (x :: rest) with
    | some (n + 1) =>
      (if 0 < gap then [gap] else []) ++ (n + 1) :: splitGaps r fuel 0 (rest.drop n)
    | _ => splitGaps r fuel (gap + 1) rest

def split (r : Regex χ) (xs : List χ) : List Nat := splitGaps r xs.length 0 xs

variable {xs : List χ}

theorem firstMatch_alt (r s : Regex χ) (xs : List χ) :
    (alt r s).firstMatch xs = (r.firstMatch xs).or (s.firstMatch xs) := List.head?_append

theorem firstMatch_seq (r s : Regex χ) (xs : List χ) :
    (seq r s).firstMatch xs =
      (r.ends xs).findSome? fun n => (s.firstMatch (xs.drop n)).map (n + ·) := by
  rw [firstMatch, ends, List.head?_flatMap]
  simp [firstMatch]

theorem firstMatch_one_seq (test : χ → Bool) (s : Regex χ) (xs : List χ) :
    (seq (one test) s).firstMatch xs =
      if xs.head?.any test then (s.firstMatch (xs.drop 1)).map (1 + ·) else none := by
  rw [firstMatch_seq, ends]
  split <;> simp

theorem firstMatch_opt_seq (test : χ → Bool) (s : Regex χ) (xs : List χ) :
    (seq (opt (one test)) s).firstMatch xs =
      ((seq (one test) s).firstMatch xs).or (s.firstMatch xs) := by
  rw [firstMatch_one_seq, firstMatch_seq, opt, ends, ends, ends]
  split
  · rw [singleton_append, List.findSome?_cons, List.findSome?_singleton]
    cases s.firstMatch (xs.drop 1) <;> simp
  · simp

theorem firstMatch_seq_of_always (r s : Regex χ) {length : List χ → Nat}
    (always : ∀ ys, s.firstMatch ys = some (length ys)) (xs : List χ) :
    (seq r s).firstMatch xs = (r.firstMatch xs).map fun n => n + length (xs.drop n) := by
  rw [firstMatch_seq, firstMatch]
  cases r.ends xs with
  | nil => rfl
  | cons n rest => simp [always]

theorem head?_countdown (least n : Nat) :
    (countdown least n).head? = if least ≤ n then some n else none := by
  cases n with
  | zero =>
    rw [countdown]
    split_ifs <;> first | rfl | omega
  | succ n =>
    rw [countdown]
    split <;> rfl

theorem firstMatch_plus (test : χ → Bool) (xs : List χ) :
    (plus test).firstMatch xs = if 0 < countRun test xs then some (countRun test xs) else none :=
  head?_countdown 1 _

theorem firstMatch_star (test : χ → Bool) (xs : List χ) :
    (star test).firstMatch xs = some (countRun test xs) :=
  (head?_countdown 0 _).trans (if_pos (Nat.zero_le _))

theorem firstMatch_rep (test : χ → Bool) (least bound : Nat) (xs : List χ) :
    (rep test least (some bound)).firstMatch xs =
      if least ≤ min bound (countRun test xs) then some (min bound (countRun test xs)) else none :=
  head?_countdown least _

theorem mem_countdown {least n k : Nat} (member : k ∈ countdown least n) : k ≤ n := by
  induction n with
  | zero =>
    rw [countdown] at member
    split at member
    · exact le_of_eq (mem_singleton.mp member)
    · contradiction
  | succ n ih =>
    rw [countdown] at member
    split at member
    · rcases mem_cons.mp member with same | below
      · exact le_of_eq same
      · exact Nat.le_succ_of_le (ih below)
    · contradiction

theorem ends_le {r : Regex χ} {n : Nat} (member : n ∈ r.ends xs) : n ≤ xs.length := by
  induction r generalizing xs n with
  | empty => exact Nat.le_of_eq (mem_singleton.mp member) |>.trans (Nat.zero_le _)
  | one test =>
    rw [ends] at member
    split at member
    · rw [mem_singleton.mp member]
      cases xs with
      | nil => contradiction
      | cons x rest => exact Nat.succ_pos _
    · contradiction
  | seq first second firstLe secondLe =>
    obtain ⟨n, isFirst, there⟩ := mem_flatMap.mp member
    obtain ⟨m, isSecond, rfl⟩ := mem_map.mp there
    have before := firstLe isFirst
    have behind := secondLe isSecond
    rw [length_drop] at behind
    omega
  | alt first second firstLe secondLe =>
    exact (mem_append.mp member).elim firstLe secondLe
  | rep test least most =>
    have low := mem_countdown member
    have high := countRun_le test xs
    cases most with
    | none => exact le_trans low high
    | some bound => exact le_trans low (le_trans (min_le_right _ _) high)
  | notAhead test =>
    rw [ends] at member
    split at member
    · contradiction
    · exact Nat.le_of_eq (mem_singleton.mp member) |>.trans (Nat.zero_le _)

theorem firstMatch_le {r : Regex χ} {n : Nat} (found : r.firstMatch xs = some n) : n ≤ xs.length :=
  ends_le (mem_of_mem_head? found)

theorem findSome?_countdown {β : Type*} {f : Nat → Option β} {least n k : Nat} {b : β}
    (inside : least ≤ k ∧ k ≤ n) (here : f k = some b) (above : ∀ j, k < j → j ≤ n → f j = none) :
    (countdown least n).findSome? f = some b := by
  induction n with
  | zero =>
    have place : k = 0 := Nat.le_zero.mp inside.2
    rw [place] at here inside
    rw [countdown, if_pos (Nat.le_zero.mp inside.1), List.findSome?_cons, here]
  | succ n ih =>
    rw [countdown, if_pos (le_trans inside.1 inside.2), List.findSome?_cons]
    rcases Nat.lt_or_eq_of_le inside.2 with less | same
    · rw [above (n + 1) less (le_refl _)]
      exact ih ⟨inside.1, Nat.le_of_lt_succ less⟩ fun j after before =>
        above j after (Nat.le_succ_of_le before)
    · rw [← same, here]

theorem findSome?_countdown_none {β : Type*} {f : Nat → Option β} {least n : Nat}
    (nowhere : ∀ j, least ≤ j → j ≤ n → f j = none) : (countdown least n).findSome? f = none := by
  induction n with
  | zero =>
    rw [countdown]
    split
    · rename_i zero
      rw [List.findSome?_cons, nowhere 0 (le_of_eq zero) (le_refl 0)]
      rfl
    · rfl
  | succ n ih =>
    rw [countdown]
    split
    · rename_i least_le
      rw [List.findSome?_cons, nowhere (n + 1) least_le (le_refl _)]
      exact ih fun j low high => nowhere j low (Nat.le_succ_of_le high)
    · rfl

theorem firstMatch_notAhead (test : χ → Bool) (xs : List χ) :
    (notAhead test).firstMatch xs = if xs.head?.any test then none else some 0 := by
  rw [firstMatch, ends]
  split <;> rfl

/-- A run that nothing but its own class may follow: all of it at the end, or else all but its last
character. -/
theorem firstMatch_plus_notAhead (test : χ → Bool) (xs : List χ) :
    (seq (plus test) (notAhead fun x => !test x)).firstMatch xs =
      if countRun test xs = xs.length then (plus test).firstMatch xs
      else if 1 < countRun test xs then some (countRun test xs - 1) else none := by
  have ahead (n : Nat) : ((notAhead fun x => !test x).firstMatch (xs.drop n)).map (n + ·) =
      if (xs.drop n).head?.any (fun x => !test x) then none else some n := by
    rw [firstMatch_notAhead]
    split <;> rfl
  rw [firstMatch_seq, firstMatch_plus]
  simp only [ahead]
  show (countdown 1 (countRun test xs)).findSome? _ = _
  split
  · rename_i whole
    split
    · rename_i some_
      refine findSome?_countdown ⟨some_, le_refl _⟩ ?_ fun j after before =>
        absurd before (Nat.not_le_of_lt after)
      rw [drop_of_length_le (le_of_eq whole.symm)]
      rfl
    · exact findSome?_countdown_none fun j low high => by omega
  · rename_i more
    have short := lt_of_le_of_ne (countRun_le test xs) more
    have stops : (xs.drop (countRun test xs)).head?.any (fun x => !test x) = true := by
      have fails := not_holdsAt_countRun test xs
      rw [holdsAt, List.getElem?_eq_getElem short, any_some] at fails
      rw [List.head?_drop, List.getElem?_eq_getElem short, any_some, fails]
      rfl
    have passes {j : Nat} (inside : j < countRun test xs) :
        (xs.drop j).head?.any (fun x => !test x) = false := by
      have passes := holdsAt_of_lt inside
      have shorter := lt_of_lt_of_le inside (countRun_le test xs)
      rw [holdsAt, List.getElem?_eq_getElem shorter, any_some] at passes
      rw [List.head?_drop, List.getElem?_eq_getElem shorter, any_some, passes]
      rfl
    split
    · refine findSome?_countdown (k := countRun test xs - 1) ⟨by omega, by omega⟩ ?_ ?_
      · rw [passes (by omega)]
        rfl
      · intro j after before
        have last : j = countRun test xs := by omega
        rw [last, stops]
        rfl
    · refine findSome?_countdown_none fun j low high => ?_
      have last : j = countRun test xs := by omega
      rw [last, stops]
      rfl

theorem firstMatch_star_seq {outer inner : χ → Bool} {r : Regex χ} {length : List χ → Nat}
    (fails : ∀ ys, ys.head?.any inner = false → r.firstMatch ys = none)
    (matches_ : ∀ ys, ys.head?.any inner = true → r.firstMatch ys = some (length ys))
    (xs : List χ) :
    (∀ j, j ≤ countRun outer xs → holdsAt inner xs j = true →
        (∀ i, j < i → i ≤ countRun outer xs → holdsAt inner xs i = false) →
        (seq (star outer) r).firstMatch xs = some (j + length (xs.drop j))) ∧
      ((∀ i ≤ countRun outer xs, holdsAt inner xs i = false) →
        (seq (star outer) r).firstMatch xs = none) := by
  have failsAt {i : Nat} (not : holdsAt inner xs i = false) :
      (r.firstMatch (xs.drop i)).map (i + ·) = none := by
    rw [fails _ (by rw [head?_drop_any, not])]
    rfl
  rw [firstMatch_seq]
  refine ⟨fun j inside here after => findSome?_countdown ⟨Nat.zero_le j, inside⟩ ?_ fun i late low =>
    failsAt (after i late low), fun nowhere => findSome?_countdown_none fun i _ low =>
      failsAt (nowhere i low)⟩
  rw [matches_ _ (by rw [head?_drop_any, here])]
  rfl

theorem firstMatch_star_plus {outer inner : χ → Bool} (within : ∀ x, inner x = true → outer x = true)
    (xs : List χ) :
    (seq (star outer) (plus inner)).firstMatch xs =
      let run := xs.takeWhile outer
      let last := run.length - countRun (fun x => !inner x) run.reverse
      if 0 < last then some last else none := by
  obtain ⟨kept, behind, split, none_, length, ends⟩ := exists_last inner (xs.takeWhile outer)
  have fails (ys : List χ) (stops : ys.head?.any inner = false) :
      (plus inner).firstMatch ys = none := by
    rw [firstMatch_plus, countRun_eq_zero stops, if_neg (lt_irrefl 0)]
  have matches_ (ys : List χ) (starts : ys.head?.any inner = true) :
      (plus inner).firstMatch ys = some (countRun inner ys) := by
    rw [firstMatch_plus, if_pos (countRun_pos.mpr starts)]
  obtain ⟨goesBack, gives_up⟩ := @firstMatch_star_seq _ outer _ _ _ fails matches_ xs
  have whole : xs = kept ++ (behind ++ xs.dropWhile outer) := by
    rw [← append_assoc, ← split, takeWhile_append_dropWhile]
  -- no character of the inner class is behind the last one of the run
  have beyond {j : Nat} (after : kept.length ≤ j) (inside : j ≤ countRun outer xs) :
      holdsAt inner xs j = false := by
    rw [countRun, split, length_append] at inside
    obtain ⟨k, rfl⟩ := Nat.exists_eq_add_of_le after
    rw [← head?_drop_any]
    conv_lhs => rw [whole]
    rw [← drop_drop, drop_left, drop_append_of_le_length (by omega)]
    cases rest : behind.drop k with
    | nil =>
      have stops := any_head?_dropWhile outer xs
      rw [nil_append]
      cases head : (xs.dropWhile outer).head? with
      | none => rfl
      | some x =>
        rw [head, any_some] at stops
        rw [← Bool.not_eq_true]
        exact fun isInner => absurd (within x isInner) (by rw [stops]; exact Bool.false_ne_true)
    | cons x rest_ =>
      have member : x ∈ behind := mem_of_mem_drop (rest ▸ mem_cons_self)
      exact none_ x member
  have bound : kept.length ≤ countRun outer xs := by
    rw [countRun, split, length_append]
    exact Nat.le_add_right _ _
  dsimp only
  rw [← length]
  rcases ends with nothing | ⟨front, x, isKept, isInner⟩
  · rw [nothing, length_nil]
    exact gives_up fun i low => beyond (by simp [nothing]) low
  · have last : kept.length = front.length + 1 := by rw [isKept, length_append]; rfl
    have here : xs.drop front.length = x :: xs.drop kept.length := by
      conv_lhs => rw [whole, isKept, append_assoc, drop_left]
      conv_rhs => rw [whole, drop_left]
      rfl
    have one : countRun inner (xs.drop front.length) = 1 := by
      have rest := beyond (le_refl _) bound
      rw [← head?_drop_any] at rest
      rw [here, countRun_cons, if_pos isInner, countRun_eq_zero rest]
    have starts : holdsAt inner xs front.length = true := by
      rw [← head?_drop_any, here]
      exact isInner
    rw [if_pos (by omega), goesBack front.length (by omega) starts fun i late low =>
      beyond (by omega) low, one, last]

variable {r : Regex χ}

theorem splitGaps_fuel {fuel other gap : Nat} {xs : List χ} (enough : xs.length ≤ fuel)
    (alsoEnough : xs.length ≤ other) : splitGaps r fuel gap xs = splitGaps r other gap xs := by
  induction fuel generalizing other gap xs with
  | zero =>
    rw [length_eq_zero_iff.mp (Nat.le_zero.mp enough), splitGaps, splitGaps]
  | succ fuel ih =>
    cases xs with
    | nil => rw [splitGaps, splitGaps]
    | cons x rest =>
      cases other with
      | zero => contradiction
      | succ other =>
        have shorter (n : Nat) : (rest.drop n).length ≤ rest.length := by
          rw [length_drop]
          exact Nat.sub_le _ _
        have less := Nat.le_of_succ_le_succ enough
        have alsoLess := Nat.le_of_succ_le_succ alsoEnough
        rw [splitGaps, splitGaps]
        split
        · rename_i n _
          rw [ih (le_trans (shorter n) less) (le_trans (shorter n) alsoLess)]
        · exact ih less alsoLess

theorem split_of_match {n : Nat} (found : r.firstMatch xs = some n) (some_ : 0 < n) :
    split r xs = n :: split r (xs.drop n) := by
  obtain ⟨x, rest, rfl⟩ := exists_cons_of_length_pos
    (lt_of_lt_of_le some_ (firstMatch_le found))
  obtain ⟨n, rfl⟩ := Nat.exists_eq_add_of_lt some_
  rw [split, length_cons, splitGaps, found]
  refine congrArg (_ :: ·) (splitGaps_fuel ?_ (le_refl _))
  rw [length_drop]
  exact Nat.sub_le _ _

theorem split_of_gap {x : χ} {rest : List χ} (none_ : r.firstMatch (x :: rest) = none)
    (next : rest = [] ∨ ∃ n, 0 < n ∧ r.firstMatch rest = some n) :
    split r (x :: rest) = 1 :: split r rest := by
  rw [split, length_cons, splitGaps, none_]
  rcases next with ends | ⟨n, some_, found⟩
  · rw [ends]
    rfl
  · cases rest with
    | nil => rfl
    | cons y others =>
      obtain ⟨n, rfl⟩ := Nat.exists_eq_add_of_lt some_
      rw [split, length_cons, splitGaps, splitGaps, found]
      rfl

def Successive (r : Regex χ) : List χ → List Nat → Prop
  | _, [] => True
  | xs, n :: rest => 0 < n ∧ r.firstMatch xs = some n ∧ Successive r (xs.drop n) rest

theorem split_successive {lengths : List Nat} (matches_ : Successive r xs lengths) :
    split r xs = lengths ++ split r (xs.drop lengths.sum) := by
  induction lengths generalizing xs with
  | nil => rfl
  | cons n rest ih =>
    obtain ⟨some_, found, others⟩ := matches_
    rw [split_of_match found some_, ih others, drop_drop]
    rfl

theorem successive_singleton {n : Nat} (some_ : 0 < n) (found : r.firstMatch xs = some n) :
    Successive r xs [n] := ⟨some_, found, trivial⟩

def AtStarts (property : List χ → Prop) : List χ → List Nat → Prop
  | _, [] => True
  | xs, n :: rest => property xs ∧ AtStarts property (xs.drop n) rest

theorem atStarts_append {property : List χ → Prop} {lengths others : List Nat} :
    AtStarts property xs (lengths ++ others) ↔
      AtStarts property xs lengths ∧ AtStarts property (xs.drop lengths.sum) others := by
  induction lengths generalizing xs with
  | nil => exact (and_iff_right trivial).symm
  | cons n rest ih =>
    rw [cons_append, AtStarts, AtStarts, ih, drop_drop, sum_cons, and_assoc]

end Regex

def Parted {α : Type*} (xs ys : List α) : Prop :=
  ∃ front x y, x ≠ y ∧ front ++ [x] <+: xs ∧ front ++ [y] <+: ys

theorem parted_cons {α : Type*} {x y : α} (differ : x ≠ y) (xs ys : List α) :
    Parted (x :: xs) (y :: ys) :=
  ⟨[], x, y, differ, prefix_append [x] xs, prefix_append [y] ys⟩

theorem Parted.append_left {α : Type*} {xs ys : List α} (parted : Parted xs ys) (front : List α) :
    Parted (front ++ xs) (front ++ ys) := by
  obtain ⟨shared, x, y, differ, left, right⟩ := parted
  refine ⟨front ++ shared, x, y, differ, ?_, ?_⟩
  · rw [append_assoc]
    exact (prefix_append_right_inj front).mpr left
  · rw [append_assoc]
    exact (prefix_append_right_inj front).mpr right

theorem Parted.append_ne {α : Type*} {xs ys : List α} (parted : Parted xs ys) (us vs : List α) :
    xs ++ us ≠ ys ++ vs := by
  obtain ⟨front, x, y, differ, left, right⟩ := parted
  intro same
  have first := left.trans (prefix_append xs us)
  have second := right.trans (prefix_append ys vs)
  rw [← same] at second
  have equal := (prefix_of_prefix_length_le first second (by simp)).eq_of_length (by simp)
  exact differ (singleton_inj.mp (append_cancel_left equal))

theorem flatten_map_eq_iff {α β : Type*} {f g : α → List β} {agrees : α → Prop} {items : List α}
    (each : ∀ item ∈ items, (agrees item ∧ f item = g item) ∨
      (¬ agrees item ∧ Parted (f item) (g item))) :
    (items.map f).flatten = (items.map g).flatten ↔ ∀ item ∈ items, agrees item := by
  induction items with
  | nil => exact iff_of_true rfl (by simp)
  | cons item rest ih =>
    rw [map_cons, map_cons, flatten_cons, flatten_cons, forall_mem_cons]
    rcases each item mem_cons_self with ⟨agree, same⟩ | ⟨not, parted⟩
    · rw [same, append_cancel_left_eq,
        ih fun other member => each other (mem_cons_of_mem _ member)]
      exact (and_iff_right agree).symm
    · exact iff_of_false (parted.append_ne _ _) fun all => not all.1

end

end LlamaCpp.Lib
