import LlamaCpp.Vocab.RegexPatterns
import Mathlib.Data.Nat.Find

/-!
# The words of Kimi K2

The pattern of Kimi K2 tells letters by their case and takes combining marks for letters of either
case.  Its splitter takes a run of letters instead.  The two agree on a token if the letters are in
the order that the pattern asks for, and marks are not among them.
-/

set_option autoImplicit false

namespace LlamaCpp.Vocab

open LlamaCpp.Lib LlamaCpp.Lib.Regex List Option

inductive LetterCategory
  | lu | ll | lt | lm | lo
deriving DecidableEq

def CptFlags.isAccentMark (flags : CptFlags) : Bool := flags.getLsbD 4

section

variable (data : UnicodeData) (category : Nat → LetterCategory)

/-- `\p{M}` without `\p{Han}`. -/
def isMarkCpt (cpt : Nat) : Bool := (data.cptFlags cpt).isAccentMark && !unicodeCptIsHan cpt

/-- `\p{L}` without `\p{Han}`. -/
def isKimiLetter (cpt : Nat) : Bool := isLetterCpt data cpt && !unicodeCptIsHan cpt

/-- `[\p{Lu}\p{Lt}\p{Lm}\p{Lo}\p{M}&&[^\p{Han}]]` -/
def isUpperCpt (cpt : Nat) : Bool :=
  isMarkCpt data cpt || (isKimiLetter data cpt && category cpt != .ll)

/-- `[\p{Ll}\p{Lm}\p{Lo}\p{M}&&[^\p{Han}]]` -/
def isLowerCpt (cpt : Nat) : Bool :=
  isMarkCpt data cpt || (isKimiLetter data cpt && category cpt != .lu && category cpt != .lt)

/-- `(?i:'s|'t|'re|'ve|'m|'ll|'d)?` -/
def optionalEnding : Regex Nat :=
  opt (contractions fun letter cpt => cpt == letter || cpt == letter - 32)

def lowerWord : Regex Nat :=
  seq (star (isUpperCpt data category)) (seq (plus (isLowerCpt data category)) optionalEnding)

def upperWord : Regex Nat :=
  seq (plus (isUpperCpt data category)) (seq (star (isLowerCpt data category)) optionalEnding)

/-- The pattern of `tokenization_kimi.py`. -/
def kimiPattern : Regex Nat :=
  alt (plus unicodeCptIsHan) <|
  alt (seq (opt (one (isLeadCpt data))) (lowerWord data category)) <|
  alt (seq (opt (one (isLeadCpt data))) (upperWord data category)) <|
  alt (rep (isNumberCpt data) 1 (some 3)) (symbolsAndSpaces data)

/-- What the tables say of marks, of `\p{Han}`, and of the apostrophe and the letters that may follow
it. -/
structure UnicodeData.MarkTables (data : UnicodeData) : Prop extends data.Tables where
  mark : ∀ cpt, isMarkCpt data cpt = true → isLetterCpt data cpt = false ∧
    isNumberCpt data cpt = false ∧ isWhitespaceCpt data cpt = false
  han : ∀ cpt, unicodeCptIsHan cpt = true → isNumberCpt data cpt = false
  apostropheOther : isOtherCpt data 39 = true ∧ isMarkCpt data 39 = false
  endings : ∀ letter ∈ [115, 116, 109, 100, 114, 101, 118, 108],
    isLetterCpt data letter = true ∧ isLetterCpt data (letter - 32) = true

/-- Letters of either case are followed by some that are not capitals, or all of them are capitals
and no mark comes before them; no mark is behind them. -/
def LettersAgree (afterMark : Bool) (word : List Nat) : Prop :=
  (word.dropWhile (isKimiLetter data)).head?.any (isMarkCpt data) = false ∧
    ((∃ front back, word.takeWhile (isKimiLetter data) = front ++ back ∧ back ≠ [] ∧
        (∀ cpt ∈ front, isUpperCpt data category cpt = true) ∧
        ∀ cpt ∈ back, isLowerCpt data category cpt = true) ∨
      afterMark = false ∧ ∀ cpt ∈ word.takeWhile (isKimiLetter data),
        isUpperCpt data category cpt = true ∧ isLowerCpt data category cpt = false)

/-- Marks have no whitespace but a space before them, and behind them neither a symbol nor a line
break, nor letters with some that are not capitals. -/
def MarksAgree (lead : Nat) (rest : List Nat) : Prop :=
  let behind := rest.dropWhile (isMarkCpt data)
  (lead = 32 ∨ isWhitespaceCpt data lead = false) ∧
    (∀ cpt ∈ behind.head?, isOtherCpt data cpt = false ∧ isNewline cpt = false) ∧
    ∀ cpt ∈ behind.takeWhile (fun cpt => isMarkCpt data cpt || isKimiLetter data cpt),
      isUpperCpt data category cpt = true ∧ isLowerCpt data category cpt = false

def TokenAgrees : List Nat → Prop
  | [] => True
  | cpt :: rest =>
    if unicodeCptIsHan cpt then True
    else if isKimiLetter data cpt then LettersAgree data category false (cpt :: rest)
    else if isLeadCpt data cpt && rest.head?.any (isKimiLetter data) then
      LettersAgree data category (isMarkCpt data cpt) rest
    else if isMarkCpt data cpt || (isLeadCpt data cpt && rest.head?.any (isMarkCpt data)) then
      MarksAgree data category cpt rest
    else True

end

section

variable {data : UnicodeData} {category : Nat → LetterCategory}

def endingLength (data : UnicodeData) (rest : List Nat) : Nat :=
  (contraction data.toLower rest).getD 0

theorem firstMatch_optionalEnding (tables : data.Tables) (rest : List Nat) :
    optionalEnding.firstMatch rest = some (endingLength data rest) := by
  have endings : (contractions fun letter cpt => cpt == letter || cpt == letter - 32).firstMatch rest =
      contraction data.toLower rest := by
    refine firstMatch_contractions ?_ rest
    intro letter member cpt
    rw [tables.lower letter member cpt, Bool.or_eq_true, beq_iff_eq, beq_iff_eq]
  rw [optionalEnding, opt, firstMatch_alt, endings, endingLength]
  cases contraction data.toLower rest <;> rfl

def LowerEnd (data : UnicodeData) (category : Nat → LetterCategory) (word : List Nat) (e : Nat) :
    Prop :=
  ∃ j, j ≤ countRun (isUpperCpt data category) word ∧
    holdsAt (isLowerCpt data category) word j = true ∧
    (∀ i, j < i → i ≤ countRun (isUpperCpt data category) word →
      holdsAt (isLowerCpt data category) word i = false) ∧
    e = j + countRun (isLowerCpt data category) (word.drop j)

def NoLower (data : UnicodeData) (category : Nat → LetterCategory) (word : List Nat) : Prop :=
  ∀ i ≤ countRun (isUpperCpt data category) word, holdsAt (isLowerCpt data category) word i = false

theorem lowerEnd_or_none (data : UnicodeData) (category : Nat → LetterCategory) (word : List Nat) :
    (∃ e, LowerEnd data category word e) ∨ NoLower data category word := by
  by_cases somewhere : ∃ i ≤ countRun (isUpperCpt data category) word,
      holdsAt (isLowerCpt data category) word i = true
  · obtain ⟨i, inside, here⟩ := somewhere
    refine .inl ⟨_, Nat.findGreatest (fun i => holdsAt (isLowerCpt data category) word i = true)
      (countRun (isUpperCpt data category) word), Nat.findGreatest_le _,
      Nat.findGreatest_spec (P := fun i => holdsAt (isLowerCpt data category) word i = true) inside here, fun k late low => ?_, rfl⟩
    exact Bool.not_eq_true _ ▸ Nat.findGreatest_is_greatest late low
  · push Not at somewhere
    exact .inr fun i low => Bool.not_eq_true _ ▸ somewhere i low

def isWordCpt (data : UnicodeData) (cpt : Nat) : Bool := isMarkCpt data cpt || isKimiLetter data cpt

theorem upper_word (cpt : Nat) (upper : isUpperCpt data category cpt = true) :
    isWordCpt data cpt = true := by
  rw [isUpperCpt, Bool.or_eq_true, Bool.and_eq_true] at upper
  rw [isWordCpt, Bool.or_eq_true]
  exact upper.imp_right And.left

theorem lower_word (cpt : Nat) (lower : isLowerCpt data category cpt = true) :
    isWordCpt data cpt = true := by
  rw [isLowerCpt, Bool.or_eq_true, Bool.and_eq_true, Bool.and_eq_true] at lower
  rw [isWordCpt, Bool.or_eq_true]
  exact lower.imp_right fun out => out.1.1

theorem upper_or_lower {cpt : Nat} (letter : isKimiLetter data cpt = true) :
    isUpperCpt data category cpt = true ∨ isLowerCpt data category cpt = true := by
  rw [isUpperCpt, isLowerCpt, letter]
  cases category cpt <;> simp

theorem mark_upper (cpt : Nat) (mark : isMarkCpt data cpt = true) :
    isUpperCpt data category cpt = true := by
  rw [isUpperCpt, mark, Bool.true_or]

theorem mark_lower (cpt : Nat) (mark : isMarkCpt data cpt = true) :
    isLowerCpt data category cpt = true := by
  rw [isLowerCpt, mark, Bool.true_or]

theorem word_of_letter (cpt : Nat) (letter : isKimiLetter data cpt = true) :
    isWordCpt data cpt = true := by
  rw [isWordCpt, letter, Bool.or_true]

section

variable {word : List Nat} {e : Nat}

theorem LowerEnd.pos (ends : LowerEnd data category word e) : 0 < e := by
  obtain ⟨j, -, here, -, rfl⟩ := ends
  have some_ := countRun_drop_pos.mpr here
  omega

theorem LowerEnd.inWord (ends : LowerEnd data category word e) {i : Nat} (inside : i < e) :
    holdsAt (isWordCpt data) word i = true := by
  obtain ⟨j, low, -, -, rfl⟩ := ends
  rcases lt_or_ge i j with before | after
  · exact holdsAt_mono upper_word (holdsAt_of_lt (lt_of_lt_of_le before low))
  · obtain ⟨k, rfl⟩ := Nat.exists_eq_add_of_le after
    have lower := @holdsAt_of_lt _ (isLowerCpt data category) (word.drop j) k (by omega)
    rw [holdsAt_drop] at lower
    exact holdsAt_mono lower_word lower

theorem lower_behind_uppers
    (inside : countRun (isUpperCpt data category) word < countRun (isKimiLetter data) word) :
    holdsAt (isLowerCpt data category) word (countRun (isUpperCpt data category) word) = true := by
  obtain ⟨cpt, here, letter⟩ := (any_eq_true _ _).mp (holdsAt_of_lt inside)
  have stops := not_holdsAt_countRun (isUpperCpt data category) word
  rw [holdsAt, here, any_some] at stops
  rw [holdsAt, here]
  exact (upper_or_lower letter).resolve_left (by rw [stops]; exact Bool.false_ne_true)

theorem letters_before_mark
    (mark : holdsAt (isMarkCpt data) word (countRun (isKimiLetter data) word) = true) :
    ¬ NoLower data category word ∧
      ∀ e, LowerEnd data category word e → e ≠ countRun (isKimiLetter data) word := by
  have lower := holdsAt_mono (@mark_lower _ category) mark
  rcases lt_or_ge (countRun (isUpperCpt data category) word)
      (countRun (isKimiLetter data) word) with short | long
  · have atEnd := lower_behind_uppers short
    refine ⟨fun none_ => ?_, ?_⟩
    · rw [none_ _ (le_refl _)] at atEnd
      contradiction
    · rintro _ ⟨j, inside, here, after, rfl⟩ same
      have stops := not_holdsAt_countRun (isLowerCpt data category) (word.drop j)
      rw [holdsAt_drop, same, lower] at stops
      contradiction
  · refine ⟨fun none_ => ?_, ?_⟩
    · rw [none_ _ long] at lower
      contradiction
    · rintro _ ⟨j, inside, here, after, rfl⟩ same
      have late : countRun (isKimiLetter data) word ≤ j := by
        by_contra early
        rw [after _ (by omega) long] at lower
        contradiction
      have some_ := countRun_drop_pos.mpr here
      omega

theorem letters_end
    (noMark : holdsAt (isMarkCpt data) word (countRun (isKimiLetter data) word) = false) :
    holdsAt (isWordCpt data) word (countRun (isKimiLetter data) word) = false := by
  have noLetter := not_holdsAt_countRun (isKimiLetter data) word
  rw [holdsAt] at noMark noLetter ⊢
  cases here : word[countRun (isKimiLetter data) word]? with
  | none => rfl
  | some cpt =>
    rw [here, any_some] at noMark noLetter
    rw [any_some, isWordCpt, noMark, noLetter]
    rfl

theorem NoLower.noMark (none_ : NoLower data category word) :
    holdsAt (isMarkCpt data) word (countRun (isKimiLetter data) word) = false := by
  rw [← Bool.not_eq_true]
  exact fun mark => (letters_before_mark mark).1 none_

theorem uppers_le
    (noMark : holdsAt (isMarkCpt data) word (countRun (isKimiLetter data) word) = false) :
    countRun (isUpperCpt data category) word ≤ countRun (isKimiLetter data) word := by
  by_contra long
  have ends := letters_end noMark
  rw [holdsAt_mono upper_word (holdsAt_of_lt (Nat.lt_of_not_le long))] at ends
  contradiction

theorem NoLower.uppers (none_ : NoLower data category word) :
    countRun (isUpperCpt data category) word = countRun (isKimiLetter data) word := by
  refine Nat.le_antisymm (uppers_le none_.noMark) ?_
  by_contra short
  have atEnd := lower_behind_uppers (Nat.lt_of_not_le short)
  rw [none_ _ (Nat.le_refl _)] at atEnd
  contradiction

theorem letters_alone
    (noMark : holdsAt (isMarkCpt data) word (countRun (isKimiLetter data) word) = false) :
    (LowerEnd data category word e → (e = countRun (isKimiLetter data) word ↔
        ∃ front back, word.takeWhile (isKimiLetter data) = front ++ back ∧ back ≠ [] ∧
          (∀ cpt ∈ front, isUpperCpt data category cpt = true) ∧
            ∀ cpt ∈ back, isLowerCpt data category cpt = true)) ∧
      (NoLower data category word ↔ ∀ cpt ∈ word.takeWhile (isKimiLetter data),
        isUpperCpt data category cpt = true ∧ isLowerCpt data category cpt = false) := by
  have ends := letters_end noMark
  have short := @uppers_le _ category _ noMark
  have taken := takeWhile_eq_take (isKimiLetter data) word
  have length : (word.take (countRun (isKimiLetter data) word)).length =
      countRun (isKimiLetter data) word := congrArg List.length taken.symm
  constructor
  · rintro ⟨j, low, here, after, rfl⟩
    have inside : j + countRun (isLowerCpt data category) (word.drop j) ≤
        countRun (isKimiLetter data) word := by
      by_contra long
      rw [LowerEnd.inWord ⟨j, low, here, after, rfl⟩ (Nat.lt_of_not_le long)] at ends
      contradiction
    have behind := countRun_drop_pos.mpr here
    constructor
    · intro same
      refine ⟨word.take j, (word.drop j).takeWhile (isLowerCpt data category), ?_, ?_, ?_, ?_⟩
      · rw [taken, takeWhile_eq_take, ← same, take_add]
      · exact ne_nil_of_length_pos behind
      · refine forall_mem_iff.mpr fun i inFront => ?_
        have early : i < j := Nat.lt_of_lt_of_le inFront (length_take_le j word)
        rw [holdsAt_take early]
        exact holdsAt_of_lt (Nat.lt_of_lt_of_le early low)
      · exact fun cpt member => mem_takeWhile_imp member
    · rintro ⟨front, back, split, nonempty, uppers, lowers⟩
      rw [taken] at split
      rw [split, length_append] at length
      have some_ := length_pos_iff.mpr nonempty
      have upper : front.length ≤ countRun (isUpperCpt data category) word := by
        refine le_countRun fun i early => ?_
        rw [← holdsAt_take (n := countRun (isKimiLetter data) word) (by omega), split, holdsAt,
          List.getElem?_append_left early]
        exact forall_mem_iff.mp uppers i early
      have lower (i : Nat) (late : front.length ≤ i)
          (early : i < countRun (isKimiLetter data) word) :
          holdsAt (isLowerCpt data category) word i = true := by
        rw [← holdsAt_take early, split, holdsAt, List.getElem?_append_right late]
        exact forall_mem_iff.mp lowers _ (by omega)
      have reached : front.length ≤ j := by
        by_contra short
        have stops := after front.length (Nat.lt_of_not_le short) upper
        rw [lower front.length (Nat.le_refl _) (by omega)] at stops
        contradiction
      have whole : countRun (isKimiLetter data) word - j ≤
          countRun (isLowerCpt data category) (word.drop j) := by
        refine le_countRun fun i early => ?_
        rw [holdsAt_drop]
        exact lower _ (by omega) (by omega)
      omega
  · constructor
    · intro none_ cpt member
      obtain ⟨i, early, rfl⟩ := getElem_of_mem (taken ▸ member)
      rw [length] at early
      have capital := Nat.lt_of_lt_of_eq early none_.uppers.symm
      have upper := holdsAt_of_lt capital
      have notLower := none_ i (le_of_lt capital)
      have place : i < word.length := lt_of_lt_of_le early (countRun_le _ _)
      rw [holdsAt, List.getElem?_eq_getElem place] at upper notLower
      rw [getElem_take]
      exact ⟨upper, notLower⟩
    · intro capitals i low
      rcases lt_or_ge i (countRun (isKimiLetter data) word) with early | late
      · have place : i < word.length := lt_of_lt_of_le early (countRun_le _ _)
        have member : word[i] ∈ word.takeWhile (isKimiLetter data) := by
          rw [taken]
          exact mem_take_iff_getElem.mpr ⟨i, by omega, rfl⟩
        rw [holdsAt, List.getElem?_eq_getElem place]
        exact (capitals _ member).2
      · obtain rfl : i = countRun (isKimiLetter data) word := by omega
        rw [← Bool.not_eq_true]
        intro lower
        rw [holdsAt_mono lower_word lower] at ends
        contradiction

end

section

variable (tables : data.MarkTables)
include tables

theorem firstMatch_lowerWord (word : List Nat) :
    (∀ e, LowerEnd data category word e →
        (lowerWord data category).firstMatch word = some (e + endingLength data (word.drop e))) ∧
      (NoLower data category word → (lowerWord data category).firstMatch word = none) := by
  have run (ys : List Nat) := firstMatch_seq_of_always (plus (isLowerCpt data category))
    optionalEnding (firstMatch_optionalEnding tables.toTables) ys
  have back := @firstMatch_star_seq _ (isUpperCpt data category) (isLowerCpt data category)
    (seq (plus (isLowerCpt data category)) optionalEnding)
    (fun ys => countRun (isLowerCpt data category) ys +
      endingLength data (ys.drop (countRun (isLowerCpt data category) ys)))
    (fun ys stops => by
      rw [run, firstMatch_plus, countRun_eq_zero stops]
      rfl)
    (fun ys starts => by
      rw [run, firstMatch_plus, if_pos (countRun_pos.mpr starts)]
      rfl) word
  refine ⟨?_, back.2⟩
  rintro e ⟨j, inside, here, after, rfl⟩
  rw [lowerWord, back.1 j inside here after, drop_drop, add_assoc]

theorem firstMatch_upperWord (word : List Nat) :
    (upperWord data category).firstMatch word =
      if 0 < countRun (isUpperCpt data category) word then
        let e := countRun (isUpperCpt data category) word + countRun (isLowerCpt data category)
          (word.drop (countRun (isUpperCpt data category) word))
        some (e + endingLength data (word.drop e))
      else none := by
  have always (ys : List Nat) : (seq (star (isLowerCpt data category)) optionalEnding).firstMatch ys =
      some (countRun (isLowerCpt data category) ys +
        endingLength data (ys.drop (countRun (isLowerCpt data category) ys))) := by
    rw [firstMatch_seq_of_always _ _ (firstMatch_optionalEnding tables.toTables), firstMatch_star]
    rfl
  rw [upperWord, firstMatch_seq_of_always _ _ always, firstMatch_plus]
  split
  · dsimp only
    rw [map_some, drop_drop, add_assoc]
  · rfl

theorem quote_not_word : isWordCpt data 39 = false := by
  have other := tables.apostropheOther.1
  rw [isOtherCpt, CptFlags.isOther, Bool.not_eq_true', Bool.or_eq_false_iff,
    Bool.or_eq_false_iff] at other
  rw [isWordCpt, tables.apostropheOther.2, isKimiLetter, isLetterCpt, other.1.2]
  rfl

theorem endingLength_word {word : List Nat} {i : Nat}
    (inWord : holdsAt (isWordCpt data) word i = true) : endingLength data (word.drop i) = 0 := by
  rw [← head?_drop_any] at inWord
  rw [endingLength]
  cases behind : word.drop i with
  | nil => rfl
  | cons cpt rest =>
    rw [behind, List.head?_cons, any_some] at inWord
    rw [contraction_of_ne, getD_none]
    rintro rfl
    rw [quote_not_word tables] at inWord
    contradiction

omit tables in
theorem LowerEnd.not_noLower {word : List Nat} {e : Nat} (ends : LowerEnd data category word e) :
    ¬ NoLower data category word := by
  obtain ⟨j, low, here, -, -⟩ := ends
  intro none_
  rw [none_ j low] at here
  contradiction

theorem lettersAgree_of_end {word : List Nat} {e : Nat} (afterMark : Bool)
    (ends : LowerEnd data category word e) :
    e + endingLength data (word.drop e) = countRun (isKimiLetter data) word +
        endingLength data (word.drop (countRun (isKimiLetter data) word)) ↔
      LettersAgree data category afterMark word := by
  have apart (other : e ≠ countRun (isKimiLetter data) word) :
      e + endingLength data (word.drop e) ≠ countRun (isKimiLetter data) word +
        endingLength data (word.drop (countRun (isKimiLetter data) word)) := by
    rcases Nat.lt_or_gt_of_ne other with less | more
    · rw [endingLength_word tables (holdsAt_mono word_of_letter (holdsAt_of_lt less))]
      omega
    · rw [endingLength_word tables (ends.inWord more)]
      omega
  rw [LettersAgree, ← drop_countRun, head?_drop_any]
  cases mark : holdsAt (isMarkCpt data) word (countRun (isKimiLetter data) word) with
  | true => exact iff_of_false (apart ((letters_before_mark mark).2 e ends)) fun agree =>
    Bool.noConfusion agree.1
  | false =>
    obtain ⟨order, capitals⟩ := @letters_alone _ category _ e mark
    constructor
    · intro same
      refine ⟨rfl, .inl ((order ends).mp ?_)⟩
      by_contra other
      exact apart other same
    · rintro ⟨-, inOrder | ⟨-, all⟩⟩
      · rw [(order ends).mpr inOrder]
      · exact absurd (capitals.mpr all) ends.not_noLower

omit tables in
theorem lettersAgree_of_none {word : List Nat} (afterMark : Bool)
    (none_ : NoLower data category word) :
    LettersAgree data category afterMark word ↔ afterMark = false := by
  have capitals := (letters_alone (e := 0) none_.noMark).2.mp none_
  rw [LettersAgree, ← drop_countRun, head?_drop_any, none_.noMark]
  constructor
  · rintro ⟨-, ⟨front, back, split, some_, -, lowers⟩ | ⟨first, -⟩⟩
    · obtain ⟨cpt, others, rfl⟩ := exists_cons_of_ne_nil some_
      have notLower := (capitals cpt (by rw [split]; simp)).2
      rw [lowers cpt mem_cons_self] at notLower
      contradiction
    · exact first
  · exact fun first => ⟨rfl, .inr ⟨first, capitals⟩⟩

theorem firstMatch_capitals {word : List Nat} (none_ : NoLower data category word) :
    (upperWord data category).firstMatch word =
      if 0 < countRun (isKimiLetter data) word then
        some (countRun (isKimiLetter data) word +
          endingLength data (word.drop (countRun (isKimiLetter data) word)))
      else none := by
  have noneBehind : countRun (isLowerCpt data category)
      (word.drop (countRun (isKimiLetter data) word)) = 0 := by
    refine Nat.eq_zero_of_not_pos fun some_ => ?_
    have lower := countRun_drop_pos.mp some_
    rw [none_ _ (le_of_eq none_.uppers.symm)] at lower
    contradiction
  rw [firstMatch_upperWord tables, none_.uppers, noneBehind]
  rfl

end

end

end LlamaCpp.Vocab
