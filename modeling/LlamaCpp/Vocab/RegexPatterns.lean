import LlamaCpp.Lib.Regex
import LlamaCpp.Vocab.AfmoeDigits

/-!
# The hand-written splitters against their patterns

The patterns of GPT-2, Llama 3 and Qwen 2 as regular expressions over the classes of the Unicode
tables.  A round of a splitter takes the first match of its pattern, or several that follow each
other, or a single character at which nothing matches.
-/

set_option autoImplicit false

namespace LlamaCpp.Vocab

open LlamaCpp.Lib LlamaCpp.Lib.Regex List Option

/-- `'s|'t|'re|'ve|'m|'ll|'d`, with a test for each letter. -/
def contractions (letter : Nat → Nat → Bool) : Regex Nat :=
  let suffix (letters : List Nat) := literal ((· == 39) :: letters.map letter)
  alt (suffix [115]) <| alt (suffix [116]) <| alt (suffix [114, 101]) <|
    alt (suffix [118, 101]) <| alt (suffix [109]) <| alt (suffix [108, 108]) (suffix [100])

section

variable (data : UnicodeData)

def isLetterCpt (cpt : Nat) : Bool := (data.cptFlags cpt).isLetter
def isWhitespaceCpt (cpt : Nat) : Bool := (data.cptFlags cpt).isWhitespace

/-- `[^\s\p{L}\p{N}]` -/
def isOtherCpt (cpt : Nat) : Bool := (data.cptFlags cpt).isOther

/-- `[^\r\n\p{L}\p{N}]` -/
def isLeadCpt (cpt : Nat) : Bool := !(isNewline cpt || isLetterCpt data cpt || isNumberCpt data cpt)

def optionalSpace (r : Regex Nat) : Regex Nat := seq (opt (one (· == 32))) r

/-- `\s+(?!\S)` -/
def trailingWhitespace : Regex Nat :=
  seq (plus (isWhitespaceCpt data)) (notAhead fun cpt => !isWhitespaceCpt data cpt)

/-- `'s|'t|'re|'ve|'m|'ll|'d| ?\p{L}+| ?\p{N}+| ?[^\s\p{L}\p{N}]+|\s+(?!\S)` -/
def gpt2Pattern : Regex Nat :=
  alt (contractions (· == ·)) <|
  alt (optionalSpace (plus (isLetterCpt data))) <|
  alt (optionalSpace (plus (isNumberCpt data))) <|
  alt (optionalSpace (plus (isOtherCpt data))) (trailingWhitespace data)

/-- `| ?[^\s\p{L}\p{N}]+[\r\n]*|\s*[\r\n]+|\s+(?!\S)|\s+` -/
def symbolsAndSpaces : Regex Nat :=
  alt (optionalSpace (seq (plus (isOtherCpt data)) (star isNewline))) <|
  alt (seq (star (isWhitespaceCpt data)) (plus isNewline)) <|
  alt (trailingWhitespace data) (plus (isWhitespaceCpt data))

/-- `(?:'[sS]|'[tT]|'[rR][eE]|'[vV][eE]|'[mM]|'[lL][lL]|'[dD])|[^\r\n\p{L}\p{N}]?\p{L}+|`, a pattern
for digits, and the one for what is neither a letter nor a digit. -/
def llamaPattern (digits : Regex Nat) : Regex Nat :=
  alt (contractions fun letter cpt => cpt == letter || cpt == letter - 32) <|
  alt (seq (opt (one (isLeadCpt data))) (plus (isLetterCpt data))) <|
  alt digits (symbolsAndSpaces data)

/-- With `\p{N}{1,3}`. -/
def llama3Pattern : Regex Nat := llamaPattern data (rep (isNumberCpt data) 1 (some 3))

/-- With `\p{N}`. -/
def qwen2Pattern : Regex Nat := llamaPattern data (one (isNumberCpt data))

/-- What the tables of `unicode-data.cpp` say: every code point has a category, of which it has one
only; the space and the line breaks are whitespace, the apostrophe is not a number; and the lower
case of nothing but a letter and its capital is the letter. -/
structure UnicodeData.Tables (data : UnicodeData) : Prop where
  assigned : ∀ cpt, data.cptFlags cpt ≠ 0
  apart : ∀ cpt, isLetterCpt data cpt = true → isNumberCpt data cpt = false
  whitespace : ∀ cpt, cpt = 32 ∨ isNewline cpt = true → isWhitespaceCpt data cpt = true ∧
    isLetterCpt data cpt = false ∧ isNumberCpt data cpt = false
  apostrophe : isNumberCpt data 39 = false
  lower : ∀ letter ∈ [115, 116, 109, 100, 114, 101, 118, 108], ∀ cpt,
    data.toLower cpt = letter ↔ cpt = letter ∨ cpt = letter - 32

end

/-- What a round takes: matches that follow each other, or one character before the end or the next
match. -/
def RoundOf (r : Regex Nat) (rest lengths : List Nat) : Prop :=
  (lengths ≠ [] ∧ Successive r rest lengths) ∨
    (lengths = [1] ∧ r.firstMatch rest = none ∧
      (rest.tail = [] ∨ ∃ n, 0 < n ∧ r.firstMatch rest.tail = some n))

theorem splitRounds_eq {r : Regex Nat} {take : List Nat → List Nat}
    (rounds : ∀ rest, rest ≠ [] → RoundOf r rest (take rest)) {fuel : Nat} {word : List Nat}
    (enough : word.length ≤ fuel) : splitRounds take fuel word = r.split word := by
  induction fuel generalizing word with
  | zero =>
    rw [length_eq_zero_iff.mp (Nat.le_zero.mp enough)]
    rfl
  | succ fuel ih =>
    cases word with
    | nil => rfl
    | cons cpt rest =>
      rw [splitRounds]
      rw [length_cons] at enough
      rcases rounds (cpt :: rest) (cons_ne_nil _ _) with ⟨some_, follow⟩ | ⟨one_, none_, next⟩
      · have taken : 0 < (take (cpt :: rest)).sum := by
          obtain ⟨n, others, split⟩ := exists_cons_of_ne_nil some_
          rw [split] at follow ⊢
          have := follow.1
          rw [sum_cons]
          omega
        rw [split_successive follow, ih]
        rw [length_drop, length_cons]
        omega
      · rw [one_, split_of_gap none_ next]
        exact congrArg (1 :: ·) (ih (by
          show rest.length ≤ fuel
          omega))

theorem splitWith_eq {r : Regex Nat} {take : List Nat → List Nat}
    (rounds : ∀ rest, rest ≠ [] → RoundOf r rest (take rest)) : splitWith take = r.split :=
  funext fun _ => splitRounds_eq rounds (le_refl _)

theorem or_ite {p : Prop} [Decidable p] {n : Nat} {other : Option Nat} :
    (if p then some n else none).or other = if p then some n else other := by
  split <;> rfl

theorem contraction_of_ne {lower : Nat → Nat} {cpt : Nat} (unquoted : cpt ≠ 39) (rest : List Nat) :
    contraction lower (cpt :: rest) = none := by
  unfold contraction
  split
  · rename_i same
    exact absurd (List.cons.inj same).1 unquoted
  · rfl

theorem firstMatch_contractions {letter : Nat → Nat → Bool} {lower : Nat → Nat}
    (tests : ∀ l ∈ [115, 116, 109, 100, 114, 101, 118, 108], ∀ cpt,
      letter l cpt = true ↔ lower cpt = l) (rest : List Nat) :
    (contractions letter).firstMatch rest = contraction lower rest := by
  have step (check : Nat → Bool) (others : List (Nat → Bool)) (x : Nat) (xs : List Nat) :
      (literal (check :: others)).firstMatch (x :: xs) =
        if check x then ((literal others).firstMatch xs).map (1 + ·) else none :=
    firstMatch_one_seq check (literal others) (x :: xs)
  have ends (check : Nat → Bool) (others : List (Nat → Bool)) :
      (literal (check :: others)).firstMatch [] = none := rfl
  have one_ {l : Nat} (member : l ∈ [115, 116, 109, 100, 114, 101, 118, 108]) (y : Nat)
      (xs : List Nat) : (literal [(· == 39), letter l]).firstMatch (39 :: y :: xs) =
        if lower y = l then some 2 else none := by
    rw [step, if_pos (by decide), step]
    simp only [tests l member y]
    split <;> rfl
  have two {l m : Nat} (first : l ∈ [115, 116, 109, 100, 114, 101, 118, 108])
      (second : m ∈ [115, 116, 109, 100, 114, 101, 118, 108]) (y z : Nat) (xs : List Nat) :
      (literal [(· == 39), letter l, letter m]).firstMatch (39 :: y :: z :: xs) =
        if lower y = l ∧ lower z = m then some 3 else none := by
    rw [step, if_pos (by decide), step, step]
    simp only [tests l first y, tests m second z, ite_and]
    split
    · split <;> rfl
    · rfl
  have short {l m : Nat} (y : Nat) :
      (literal [(· == 39), letter l, letter m]).firstMatch [39, y] = none := by
    rw [step, if_pos (by decide), step]
    split <;> rfl
  simp only [contractions, firstMatch_alt, map_cons, map_nil]
  rcases rest with _ | ⟨x, rest⟩
  · rfl
  by_cases quote : x = 39
  · subst x
    rcases rest with _ | ⟨y, _ | ⟨z, rest⟩⟩
    · rfl
    · rw [one_ (by decide), one_ (by decide), one_ (by decide), one_ (by decide), short, short, short]
      simp only [contraction, mem_cons, not_mem_nil, or_false]
      split_ifs <;> first | rfl | omega
    · rw [one_ (by decide), one_ (by decide), one_ (by decide), one_ (by decide),
        two (by decide) (by decide), two (by decide) (by decide), two (by decide) (by decide)]
      simp only [or_ite, contraction, mem_cons, not_mem_nil, or_false, Prod.mk.injEq]
      split_ifs <;> first | rfl | omega
  · have other := @contraction_of_ne lower _ quote rest
    have unquoted (others : List (Nat → Bool)) :
        (literal ((· == 39) :: others)).firstMatch (x :: rest) = none := by
      rw [step, if_neg (by simpa using quote)]
    simp [unquoted, other]

def spaceLength (rest : List Nat) : Nat := if rest[0]? = some 32 then 1 else 0

theorem firstMatch_optionalSpace {r : Regex Nat} (never : ∀ xs, r.firstMatch (32 :: xs) = none)
    (rest : List Nat) : (optionalSpace r).firstMatch rest =
      (r.firstMatch (rest.drop (spaceLength rest))).map (spaceLength rest + ·) := by
  rw [optionalSpace, firstMatch_opt_seq, firstMatch_one_seq, spaceLength]
  cases rest with
  | nil => simp
  | cons x xs =>
    by_cases space : x = 32
    · rw [space, never]
      simp
    · simp [space]

section

variable {data : UnicodeData}

theorem flagsAt_iff (test : CptFlags → Bool) (zero : test 0 = false) (rest : List Nat) (i : Nat) :
    test (flagsAt data rest i) = true ↔
      0 < countRun (fun cpt => test (data.cptFlags cpt)) (rest.drop i) := by
  rw [countRun_pos, List.head?_drop, flagsAt]
  cases rest[i]? with
  | none => exact iff_of_false (by rw [zero]; exact Bool.false_ne_true) Bool.false_ne_true
  | some cpt => rfl

theorem firstMatch_plus_cons {test : Nat → Bool} {cpt : Nat} (fails : test cpt = false)
    (xs : List Nat) : (plus test).firstMatch (cpt :: xs) = none := by
  have stops : countRun test (cpt :: xs) = 0 := countRun_eq_zero (by exact fails)
  rw [firstMatch_plus, stops, if_neg (lt_irrefl 0)]

section

variable (tables : data.Tables)
include tables

theorem assignedOther_eq :
    (fun cpt => (data.cptFlags cpt).isOther && data.cptFlags cpt != 0) = isOtherCpt data := by
  funext cpt
  rw [isOtherCpt, bne_iff_ne.mpr (tables.assigned cpt), Bool.and_true]

theorem other_iff (rest : List Nat) (i : Nat) :
    ((flagsAt data rest i).isOther = true ∧ flagsAt data rest i ≠ 0) ↔
      0 < countRun (isOtherCpt data) (rest.drop i) := by
  have same := assignedOther_eq tables
  have iff := @flagsAt_iff data (fun flags => flags.isOther && flags != 0) rfl rest i
  rw [same, Bool.and_eq_true, bne_iff_ne] at iff
  exact iff

theorem space_not_other : isOtherCpt data 32 = false := by
  have white := (tables.whitespace 32 (.inl rfl)).1
  rw [isWhitespaceCpt] at white
  simp [isOtherCpt, CptFlags.isOther, white]

omit tables in
theorem class_of_not_whitespace {cpt : Nat} (solid : isWhitespaceCpt data cpt = false) :
    isLetterCpt data cpt = true ∨ isNumberCpt data cpt = true ∨ isOtherCpt data cpt = true := by
  rw [isWhitespaceCpt] at solid
  simp only [isLetterCpt, isNumberCpt, isOtherCpt, CptFlags.isOther, solid]
  cases (data.cptFlags cpt).isLetter <;> simp

theorem firstMatch_gpt2Pattern (rest : List Nat) :
    (gpt2Pattern data).firstMatch rest =
      (contraction id rest).or (
        let space := spaceLength rest
        let run (test : Nat → Bool) := countRun test (rest.drop space)
        if 0 < run (isLetterCpt data) then some (space + run (isLetterCpt data))
        else if 0 < run (isNumberCpt data) then some (space + run (isNumberCpt data))
        else if 0 < run (isOtherCpt data) then some (space + run (isOtherCpt data))
        else (trailingWhitespace data).firstMatch rest) := by
  obtain ⟨-, notLetter, notNumber⟩ := tables.whitespace 32 (.inl rfl)
  have notOther := space_not_other tables
  have run {test : Nat → Bool} (never : test 32 = false) :
      (optionalSpace (plus test)).firstMatch rest =
        if 0 < countRun test (rest.drop (spaceLength rest)) then
          some (spaceLength rest + countRun test (rest.drop (spaceLength rest))) else none := by
    rw [firstMatch_optionalSpace (firstMatch_plus_cons never), firstMatch_plus]
    split <;> rfl
  have endings : (contractions (· == ·)).firstMatch rest = contraction id rest := by
    refine firstMatch_contractions ?_ rest
    intro letter _ cpt
    rw [beq_iff_eq, id_eq, eq_comm]
  rw [gpt2Pattern, firstMatch_alt, firstMatch_alt, firstMatch_alt, firstMatch_alt, endings,
    run notLetter, run notNumber, run notOther, or_ite, or_ite, or_ite]

theorem takeGpt2_eq (rest : List Nat) :
    takeGpt2 data rest =
      (contraction id rest).getD (
        let space := spaceLength rest
        let run (test : Nat → Bool) := countRun test (rest.drop space)
        if 0 < run (isLetterCpt data) then space + run (isLetterCpt data)
        else if 0 < run (isNumberCpt data) then space + run (isNumberCpt data)
        else if 0 < run (isOtherCpt data) then space + run (isOtherCpt data)
        else takeWhitespace data rest) := by
  unfold takeGpt2
  cases contraction id rest with
  | some n => rfl
  | none =>
    have letter := @flagsAt_iff data CptFlags.isLetter rfl rest (spaceLength rest)
    have number := @flagsAt_iff data CptFlags.isNumber rfl rest (spaceLength rest)
    have other := other_iff tables rest (spaceLength rest)
    rw [assignedOther_eq tables]
    rw [← spaceLength]
    simp only [letter, number, other]
    rfl

omit tables in
theorem firstMatch_trailingWhitespace (rest : List Nat) :
    (1 < countRun (isWhitespaceCpt data) rest ∨ countRun (isWhitespaceCpt data) rest = rest.length) →
      rest ≠ [] → (trailingWhitespace data).firstMatch rest = some (takeWhitespace data rest) := by
  intro several nonempty
  have some_ := length_pos_iff.mpr nonempty
  have inside := countRun_le (isWhitespaceCpt data) rest
  rw [trailingWhitespace, firstMatch_plus_notAhead, firstMatch_plus]
  have taken : takeWhitespace data rest =
      if 1 < countRun (isWhitespaceCpt data) rest ∧ rest[countRun (isWhitespaceCpt data) rest]?.isSome
      then countRun (isWhitespaceCpt data) rest - 1
      else if 0 < countRun (isWhitespaceCpt data) rest then countRun (isWhitespaceCpt data) rest
      else 1 := rfl
  have behind : rest[countRun (isWhitespaceCpt data) rest]?.isSome = true ↔
      countRun (isWhitespaceCpt data) rest < rest.length := by simp
  rw [taken]
  simp only [behind]
  split_ifs <;> first | rfl | omega

omit tables in
theorem firstMatch_singleWhitespace {rest : List Nat}
    (single : countRun (isWhitespaceCpt data) rest = 1) (more : 1 < rest.length) :
    (trailingWhitespace data).firstMatch rest = none ∧ takeWhitespace data rest = 1 := by
  rw [trailingWhitespace, firstMatch_plus_notAhead, if_neg (by omega), if_neg (by omega)]
  refine ⟨rfl, ?_⟩
  have taken : countWhile (fun cpt => (data.cptFlags cpt).isWhitespace) rest = 1 := single
  rw [takeWhitespace, taken]
  rfl

theorem firstMatch_gpt2_solid {rest : List Nat} (nonempty : rest ≠ [])
    (solid : countRun (isWhitespaceCpt data) rest = 0) :
    (gpt2Pattern data).firstMatch rest = some (takeGpt2 data rest) := by
  obtain ⟨cpt, others, rfl⟩ := exists_cons_of_ne_nil nonempty
  have notWhite : isWhitespaceCpt data cpt = false := by
    by_contra white
    exact (ne_of_gt (countRun_pos.mpr (by simpa using white))) solid
  have noSpace : spaceLength (cpt :: others) = 0 := by
    refine if_neg fun space => ?_
    rw [List.getElem?_cons_zero, some.injEq] at space
    rw [space, (tables.whitespace 32 (.inl rfl)).1] at notWhite
    contradiction
  have run {test : Nat → Bool} (passes : test cpt = true) :
      0 < countRun test ((cpt :: others).drop (spaceLength (cpt :: others))) := by
    rw [noSpace]
    exact countRun_pos.mpr passes
  rw [firstMatch_gpt2Pattern tables, takeGpt2_eq tables]
  cases contraction id (cpt :: others) with
  | some n => rfl
  | none =>
    dsimp only
    split_ifs with letter number other
    · rfl
    · rfl
    · rfl
    · rcases class_of_not_whitespace notWhite with isLetter | isNumber | isOther
      · exact absurd (run isLetter) letter
      · exact absurd (run isNumber) number
      · exact absurd (run isOther) other

theorem gpt2_round {rest : List Nat} (nonempty : rest ≠ []) :
    RoundOf (gpt2Pattern data) rest [takeGpt2 data rest] := by
  have positive {xs : List Nat} (some_ : xs ≠ []) := (@takeGpt2_bounds data _ some_).1
  have of_match (found : (gpt2Pattern data).firstMatch rest = some (takeGpt2 data rest)) :
      RoundOf (gpt2Pattern data) rest [takeGpt2 data rest] :=
    .inl ⟨cons_ne_nil _ _, successive_singleton (positive nonempty) found⟩
  by_cases solid : countRun (isWhitespaceCpt data) rest = 0
  · exact of_match (firstMatch_gpt2_solid tables nonempty solid)
  by_cases gap : countRun (isWhitespaceCpt data) rest = 1 ∧ 1 < rest.length
  · obtain ⟨single, more⟩ := gap
    obtain ⟨none_, one_⟩ := firstMatch_singleWhitespace single more
    have pattern := firstMatch_gpt2Pattern tables rest
    have taken := takeGpt2_eq tables rest
    dsimp only at pattern taken
    rw [none_] at pattern
    rw [one_] at taken
    cases quote : contraction id rest with
    | some n =>
      rw [quote] at pattern taken
      exact of_match (pattern.trans (congrArg some taken.symm))
    | none =>
      rw [quote] at pattern
      rw [quote, getD_none] at taken
      split_ifs at pattern taken with letter number other
      · exact of_match (pattern.trans (congrArg some taken.symm))
      · exact of_match (pattern.trans (congrArg some taken.symm))
      · exact of_match (pattern.trans (congrArg some taken.symm))
      · obtain ⟨cpt, others, rfl⟩ := exists_cons_of_ne_nil nonempty
        have tail : others ≠ [] := ne_nil_of_length_pos (Nat.lt_of_succ_lt_succ more)
        have behind : countRun (isWhitespaceCpt data) others = 0 := by
          have white := countRun_pos.mp (Nat.lt_of_lt_of_eq Nat.one_pos single.symm)
          rw [List.head?_cons, any_some] at white
          rw [countRun_cons, if_pos white] at single
          exact Nat.succ.inj single
        refine .inr ⟨by rw [taken], pattern, .inr ⟨_, positive tail, ?_⟩⟩
        exact firstMatch_gpt2_solid tables tail behind
  · have several : 1 < countRun (isWhitespaceCpt data) rest ∨
        countRun (isWhitespaceCpt data) rest = rest.length := by
      have inside := countRun_le (isWhitespaceCpt data) rest
      omega
    have trailing := @firstMatch_trailingWhitespace data rest several nonempty
    refine of_match ?_
    rw [firstMatch_gpt2Pattern tables, takeGpt2_eq tables, trailing]
    cases contraction id rest with
    | some n => rfl
    | none =>
      dsimp only
      split_ifs <;> rfl

variable {digits : Regex Nat}

theorem firstMatch_llamaPattern (rest : List Nat) :
    (llamaPattern data digits).firstMatch rest =
      (contraction data.toLower rest).or
        (((seq (opt (one (isLeadCpt data))) (plus (isLetterCpt data))).firstMatch rest).or
          ((digits.firstMatch rest).or ((symbolsAndSpaces data).firstMatch rest))) := by
  have endings : (contractions fun letter cpt => cpt == letter || cpt == letter - 32).firstMatch rest =
      contraction data.toLower rest := by
    refine firstMatch_contractions ?_ rest
    intro letter member cpt
    rw [tables.lower letter member cpt, Bool.or_eq_true, beq_iff_eq, beq_iff_eq]
  rw [llamaPattern, firstMatch_alt, firstMatch_alt, firstMatch_alt, endings]

/-- `[^\r\n\p{L}\p{N}]?\p{L}+` -/
theorem firstMatch_word (cpt : Nat) (rest : List Nat) :
    (seq (opt (one (isLeadCpt data))) (plus (isLetterCpt data))).firstMatch (cpt :: rest) =
      if ¬ (isNewline cpt = true ∨ isNumberCpt data cpt = true) ∧
          (isLetterCpt data cpt = true ∨ 0 < countRun (isLetterCpt data) rest) then
        some (1 + countRun (isLetterCpt data) rest)
      else none := by
  rw [firstMatch_opt_seq, firstMatch_one_seq, firstMatch_plus, firstMatch_plus]
  have lead : isLeadCpt data cpt = true ↔
      ¬ (isNewline cpt = true ∨ isNumberCpt data cpt = true) ∧ ¬ isLetterCpt data cpt = true := by
    simp only [isLeadCpt, Bool.not_eq_true', Bool.or_eq_false_iff, not_or, Bool.not_eq_true]
    exact ⟨fun out => ⟨⟨out.1.1, out.2⟩, out.1.2⟩, fun out => ⟨⟨out.1.1, out.2⟩, out.1.2⟩⟩
  simp only [List.head?_cons, any_some, lead, drop_succ_cons, drop_zero]
  by_cases letter : isLetterCpt data cpt = true
  · have notNumber := tables.apart cpt letter
    have notNewline : ¬ isNewline cpt = true := by
      intro newline
      rw [(tables.whitespace cpt (.inr newline)).2.1] at letter
      contradiction
    have run : countRun (isLetterCpt data) (cpt :: rest) = 1 + countRun (isLetterCpt data) rest := by
      rw [countRun_cons, if_pos letter, add_comm]
    rw [run, if_neg (fun out => out.2 letter), none_or, if_pos (by omega),
      if_pos ⟨by simp [notNumber, notNewline], .inl letter⟩]
  · have stops : countRun (isLetterCpt data) (cpt :: rest) = 0 :=
      countRun_eq_zero (by simpa using letter)
    rw [stops, if_neg (lt_irrefl 0), or_none]
    by_cases blocked : isNewline cpt = true ∨ isNumberCpt data cpt = true
    · rw [if_neg (fun out => out.1 blocked), if_neg (fun out => out.1 blocked)]
    · rw [if_pos ⟨blocked, letter⟩]
      by_cases behind : 0 < countRun (isLetterCpt data) rest
      · rw [if_pos behind, if_pos ⟨blocked, .inr behind⟩]
        rfl
      · rw [if_neg behind, if_neg (fun out => behind (out.2.resolve_left letter))]
        rfl

omit tables in
/-- ` ?[^\s\p{L}\p{N}]+[\r\n]*` -/
theorem firstMatch_others (notOther : isOtherCpt data 32 = false) (rest : List Nat) :
    (optionalSpace (seq (plus (isOtherCpt data)) (star isNewline))).firstMatch rest =
      let others := spaceLength rest + countRun (isOtherCpt data) (rest.drop (spaceLength rest))
      if 0 < countRun (isOtherCpt data) (rest.drop (spaceLength rest)) then
        some (others + countRun isNewline (rest.drop others))
      else none := by
  have run (xs : List Nat) := firstMatch_seq_of_always (plus (isOtherCpt data)) (star isNewline)
    (fun ys => firstMatch_star isNewline ys) xs
  rw [firstMatch_optionalSpace, run, firstMatch_plus]
  · split
    · rw [map_some, map_some, drop_drop, ← add_assoc]
    · rfl
  · intro xs
    rw [run, firstMatch_plus_cons notOther]
    rfl

theorem firstMatch_llama_number {cpt : Nat} {rest : List Nat} (number : isNumberCpt data cpt = true)
    {n : Nat} (found : digits.firstMatch (cpt :: rest) = some n) :
    (llamaPattern data digits).firstMatch (cpt :: rest) = some n := by
  have unquoted : cpt ≠ 39 := by
    rintro rfl
    rw [tables.apostrophe] at number
    contradiction
  rw [firstMatch_llamaPattern tables, contraction_of_ne unquoted, firstMatch_word tables,
    if_neg (fun out => out.1 (.inr number)), found]
  rfl

theorem takeLlama_cons (groups : Nat → List Nat) (cpt : Nat) (rest : List Nat) :
    takeLlama data groups (cpt :: rest) =
      match contraction data.toLower (cpt :: rest) with
      | some n => [n]
      | none =>
        let all := cpt :: rest
        let others := spaceLength all + countRun (isOtherCpt data) (all.drop (spaceLength all))
        if ¬ (isNewline cpt = true ∨ isNumberCpt data cpt = true) ∧
            (isLetterCpt data cpt = true ∨ 0 < countRun (isLetterCpt data) rest) then
          [1 + countRun (isLetterCpt data) rest]
        else if isNumberCpt data cpt = true then groups (countRun (isNumberCpt data) all)
        else if (flagsAt data all (spaceLength all)).isOther = true then
          [others + countRun isNewline (all.drop others)]
        else [takeLineBreaks data all] := by
  have behind := @flagsAt_iff data CptFlags.isLetter rfl (cpt :: rest) 1
  have assigned : flagsAt data (cpt :: rest) 0 ≠ 0 := tables.assigned cpt
  rw [takeLlama]
  cases contraction data.toLower (cpt :: rest) with
  | some n => rfl
  | none =>
    dsimp only
    rw [takeOther, assignedOther_eq tables]
    simp only [behind, assigned, ne_eq, not_false_eq_true, and_true]
    rfl

theorem firstMatch_whitespace {rest : List Nat} (white : 0 < countRun (isWhitespaceCpt data) rest) :
    (((seq (star (isWhitespaceCpt data)) (plus isNewline)).firstMatch rest).or
      (((trailingWhitespace data).firstMatch rest).or
        ((plus (isWhitespaceCpt data)).firstMatch rest))) = some (takeLineBreaks data rest) := by
  have inside := countRun_le (isWhitespaceCpt data) rest
  have breaks : takeLineBreaks data rest =
      let run := rest.takeWhile (isWhitespaceCpt data)
      let last := run.length - countRun (fun cpt => !isNewline cpt) run.reverse
      if 0 < last then last else takeWhitespace data rest := rfl
  rw [firstMatch_star_plus (fun cpt newline => (tables.whitespace cpt (.inr newline)).1), breaks]
  dsimp only
  split
  · rfl
  · by_cases single : countRun (isWhitespaceCpt data) rest = 1 ∧ 1 < rest.length
    · obtain ⟨none_, one_⟩ := firstMatch_singleWhitespace single.1 single.2
      rw [none_, one_, firstMatch_plus, single.1]
      rfl
    · rw [firstMatch_trailingWhitespace rest (by omega) (ne_nil_of_length_pos (by omega))]
      rfl

def takeSymbol (data : UnicodeData) (rest : List Nat) : Nat :=
  let others := spaceLength rest + countRun (isOtherCpt data) (rest.drop (spaceLength rest))
  if 0 < countRun (isOtherCpt data) (rest.drop (spaceLength rest)) then
    others + countRun isNewline (rest.drop others)
  else takeLineBreaks data rest

theorem firstMatch_symbolsAndSpaces {cpt : Nat} {tail : List Nat}
    (notLetter : ¬ isLetterCpt data cpt = true) (notNumber : ¬ isNumberCpt data cpt = true) :
    (symbolsAndSpaces data).firstMatch (cpt :: tail) = some (takeSymbol data (cpt :: tail)) := by
  rw [symbolsAndSpaces, firstMatch_alt, firstMatch_alt, firstMatch_alt,
    firstMatch_others (space_not_other tables), takeSymbol]
  by_cases run : 0 < countRun (isOtherCpt data) ((cpt :: tail).drop (spaceLength (cpt :: tail)))
  · rw [if_pos run, if_pos run, some_or]
  rw [if_neg run, if_neg run]
  refine firstMatch_whitespace tables ?_
  rw [countRun_pos, List.head?_cons, any_some]
  by_contra solid
  rw [Bool.not_eq_true] at solid
  have noSpace : spaceLength (cpt :: tail) = 0 := by
    refine if_neg fun space => ?_
    rw [List.getElem?_cons_zero, some.injEq] at space
    rw [space, (tables.whitespace 32 (.inl rfl)).1] at solid
    contradiction
  rcases class_of_not_whitespace solid with isLetter | isNumber | isOther
  · exact notLetter isLetter
  · exact notNumber isNumber
  · rw [noSpace] at run
    exact run (countRun_pos.mpr isOther)

theorem llama_round {groups : Nat → List Nat}
    (grouped : ∀ rest, 0 < countRun (isNumberCpt data) rest →
      groups (countRun (isNumberCpt data) rest) ≠ [] ∧
        Successive (llamaPattern data digits) rest (groups (countRun (isNumberCpt data) rest)))
    (never : ∀ cpt rest, isNumberCpt data cpt = false → digits.firstMatch (cpt :: rest) = none)
    {rest : List Nat} (nonempty : rest ≠ []) :
    RoundOf (llamaPattern data digits) rest (takeLlama data groups rest) := by
  obtain ⟨cpt, tail, rfl⟩ := exists_cons_of_ne_nil nonempty
  have of_match {n : Nat} (some_ : 0 < n)
      (found : (llamaPattern data digits).firstMatch (cpt :: tail) = some n) :
      RoundOf (llamaPattern data digits) (cpt :: tail) [n] :=
    .inl ⟨cons_ne_nil _ _, successive_singleton some_ found⟩
  have pattern := @firstMatch_llamaPattern _ tables digits (cpt :: tail)
  rw [firstMatch_word tables] at pattern
  rw [takeLlama_cons tables]
  cases quote : contraction data.toLower (cpt :: tail) with
  | some n =>
    rw [quote] at pattern
    exact of_match (contraction_bounds quote).1 pattern
  | none =>
    rw [quote] at pattern
    by_cases word : ¬ (isNewline cpt = true ∨ isNumberCpt data cpt = true) ∧
        (isLetterCpt data cpt = true ∨ 0 < countRun (isLetterCpt data) tail)
    · rw [if_pos word] at pattern
      rw [if_pos word]
      exact of_match (by omega) pattern
    rw [if_neg word] at pattern
    rw [if_neg word]
    by_cases number : isNumberCpt data cpt = true
    · rw [if_pos number]
      exact .inl (grouped (cpt :: tail) (countRun_pos.mpr number))
    rw [if_neg number]
    have notLetter : ¬ isLetterCpt data cpt = true := by
      intro letter
      refine word ⟨fun blocked => blocked.elim (fun newline => ?_) number, .inl letter⟩
      rw [(tables.whitespace cpt (.inr newline)).2.1] at letter
      contradiction
    rw [never cpt tail (Bool.not_eq_true _ ▸ number), firstMatch_symbolsAndSpaces tables notLetter number, takeSymbol] at pattern
    by_cases run : 0 < countRun (isOtherCpt data)
        ((cpt :: tail).drop (spaceLength (cpt :: tail)))
    · have other := ((other_iff tables (cpt :: tail) (spaceLength (cpt :: tail))).mpr run).1
      rw [if_pos run] at pattern
      rw [if_pos other]
      exact of_match (by omega) pattern
    rw [if_neg run] at pattern
    by_cases other : (flagsAt data (cpt :: tail) (spaceLength (cpt :: tail))).isOther = true
    · rw [if_pos other]
      -- a space at the end, where the empty flags behind it look like those of a symbol
      have unset : flagsAt data (cpt :: tail) (spaceLength (cpt :: tail)) = 0 := by
        by_contra set
        exact run ((other_iff tables _ _).mp ⟨other, set⟩)
      obtain ⟨atOne, ends⟩ : spaceLength (cpt :: tail) = 1 ∧ tail = [] := by
        rcases Nat.eq_zero_or_pos (spaceLength (cpt :: tail)) with none_ | one_
        · rw [none_] at unset
          exact absurd unset (tables.assigned cpt)
        · have single : spaceLength (cpt :: tail) = 1 := by
            unfold spaceLength at one_
            split at one_
            · rename_i space
              exact if_pos space
            · contradiction
          rw [single] at unset
          cases tail with
          | nil => exact ⟨single, rfl⟩
          | cons next others => exact absurd unset (tables.assigned next)
      subst ends
      have one_ := @takeLineBreaks_bounds data _ nonempty
      rw [length_singleton] at one_
      rw [atOne]
      refine of_match Nat.one_pos (pattern.trans ?_)
      rw [show takeLineBreaks data [cpt] = 1 by omega]
      rfl
    · rw [if_neg other]
      exact of_match (takeLineBreaks_bounds nonempty).1 pattern

omit tables in
theorem successive_digits {r : Regex Nat}
    (found : ∀ xs, 0 < countRun (isNumberCpt data) xs →
      r.firstMatch xs = some (min 3 (countRun (isNumberCpt data) xs))) (n : Nat) (xs : List Nat)
    (count : countRun (isNumberCpt data) xs = n) : Successive r xs (digitGroups n) := by
  induction n using digitGroups.induct generalizing xs with
  | case1 => trivial
  | case2 => exact successive_singleton Nat.one_pos (by rw [found xs (by omega), count]; rfl)
  | case3 => exact successive_singleton Nat.two_pos (by rw [found xs (by omega), count]; rfl)
  | case4 n ih =>
    refine ⟨Nat.succ_pos 2, ?_, ih _ ?_⟩
    · rw [found xs (by omega), count]
      congr 1
    · rw [countRun_drop (by omega), count]
      rfl

omit tables in
theorem digitGroups_ne_nil {n : Nat} (some_ : 0 < n) : digitGroups n ≠ [] := by
  intro none_
  have sum := sum_digitGroups n
  rw [none_] at sum
  exact ne_of_gt some_ sum.symm

theorem llama3_digits (rest : List Nat) (some_ : 0 < countRun (isNumberCpt data) rest) :
    digitGroups (countRun (isNumberCpt data) rest) ≠ [] ∧
      Successive (llama3Pattern data) rest (digitGroups (countRun (isNumberCpt data) rest)) := by
  refine ⟨digitGroups_ne_nil some_, successive_digits (fun xs number => ?_) _ rest rfl⟩
  cases xs with
  | nil => contradiction
  | cons cpt others =>
    refine firstMatch_llama_number tables (countRun_pos.mp number) ?_
    rw [firstMatch_rep, if_pos (by omega)]

theorem qwen2_digits (rest : List Nat) (some_ : 0 < countRun (isNumberCpt data) rest) :
    [1] ≠ [] ∧ Successive (qwen2Pattern data) rest [1] := by
  refine ⟨cons_ne_nil _ _, successive_singleton Nat.one_pos ?_⟩
  cases rest with
  | nil => contradiction
  | cons cpt others =>
    have number := countRun_pos.mp some_
    refine firstMatch_llama_number tables number ?_
    rw [firstMatch, Regex.ends, if_pos number]
    rfl

theorem llama3_round {rest : List Nat} (nonempty : rest ≠ []) :
    RoundOf (llama3Pattern data) rest (takeLlama3 data rest) := by
  refine llama_round tables (llama3_digits tables) (fun cpt others other => ?_) nonempty
  have stops : countRun (isNumberCpt data) (cpt :: others) = 0 :=
    countRun_eq_zero (by exact other)
  rw [firstMatch_rep, stops]
  rfl

theorem qwen2_round {rest : List Nat} (nonempty : rest ≠ []) :
    RoundOf (qwen2Pattern data) rest (takeQwen2 data rest) := by
  refine llama_round tables (qwen2_digits tables) (fun cpt others other => ?_) nonempty
  rw [firstMatch, Regex.ends, List.head?_cons, any_some, other]
  rfl

end

end

section

variable (data : UnicodeData)

def unicodeRegexSplitCustomGpt2 (text : Bytes) (offsets : List Nat) : List Nat :=
  splitOffsets (splitWith fun rest => [takeGpt2 data rest]) (unicodeCptsFromUtf8 text) offsets

def unicodeRegexSplitCustomLlama3 (text : Bytes) (offsets : List Nat) : List Nat :=
  splitOffsets (splitWith (takeLlama3 data)) (unicodeCptsFromUtf8 text) offsets

def unicodeRegexSplitCustomQwen2 (text : Bytes) (offsets : List Nat) : List Nat :=
  splitOffsets (splitWith (takeQwen2 data)) (unicodeCptsFromUtf8 text) offsets

def matchLengths (r : Regex Nat) (text : Bytes) (offsets : List Nat) : List Nat :=
  ((cutAt (unicodeCptsFromUtf8 text) offsets).map r.split).flatten

variable {data}

end

/-- The classes of ASCII, in which everything that is not a letter, a digit or whitespace is a
symbol. -/
def asciiData : UnicodeData where
  cptFlags cpt :=
    if cpt = 32 ∨ 9 ≤ cpt ∧ cpt ≤ 13 then 0x0180
    else if 48 ≤ cpt ∧ cpt ≤ 57 then 0x0002
    else if 65 ≤ cpt ∧ cpt ≤ 90 ∨ 97 ≤ cpt ∧ cpt ≤ 122 then 0x0004
    else 0x0040
  toLower cpt := if 65 ≤ cpt ∧ cpt ≤ 90 then cpt + 32 else cpt

theorem asciiData_tables : asciiData.Tables where
  assigned cpt := by
    simp only [asciiData]
    split_ifs <;> decide
  apart cpt letter := by
    simp only [asciiData, isLetterCpt, isNumberCpt] at letter ⊢
    split_ifs at letter ⊢ <;> first | rfl | contradiction
  whitespace cpt white := by
    have inside : cpt = 32 ∨ 9 ≤ cpt ∧ cpt ≤ 13 := by
      rcases white with space | newline
      · exact .inl space
      · rw [isNewline, Bool.or_eq_true, beq_iff_eq, beq_iff_eq] at newline
        omega
    simp only [asciiData, isWhitespaceCpt, isLetterCpt, isNumberCpt, if_pos inside]
    decide
  apostrophe := by decide
  lower letter member cpt := by
    simp only [asciiData]
    simp only [mem_cons, not_mem_nil, or_false] at member
    split_ifs <;> omega

end LlamaCpp.Vocab
