import LlamaCpp.Vocab.KimiWords

/-!
# The splitter of Kimi K2 against its pattern

A round of the splitter takes what the pattern takes exactly at the tokens with letters and marks as
`TokenAgrees` says, so it returns the lengths of the pattern if every token of the pattern is one.
-/

set_option autoImplicit false

namespace LlamaCpp.Vocab

open LlamaCpp.Lib LlamaCpp.Lib.Regex List

section

variable {data : UnicodeData} {category : Nat → LetterCategory}

theorem capital_of_word {cpt : Nat} (word : isWordCpt data cpt = true)
    (notLower : isLowerCpt data category cpt = false) : isUpperCpt data category cpt = true := by
  rw [isWordCpt, Bool.or_eq_true] at word
  rcases word with mark | letter
  · exact mark_upper cpt mark
  · refine (upper_or_lower letter).resolve_right ?_
    rw [notLower]
    exact Bool.false_ne_true

section

variable {rest : List Nat} {e : Nat}

theorem LowerEnd.past_marks (ends : LowerEnd data category rest e) :
    countRun (isMarkCpt data) rest ≤ e := by
  obtain ⟨j, -, here, -, rfl⟩ := ends
  have run : countRun (isMarkCpt data) rest - j ≤
      countRun (isLowerCpt data category) (rest.drop j) := by
    refine le_countRun fun i inside => ?_
    rw [holdsAt_drop]
    exact holdsAt_mono mark_lower (holdsAt_of_lt (by omega))
  omega

theorem LowerEnd.at_marks (ends : LowerEnd data category rest e) :
    e = countRun (isMarkCpt data) rest ↔
      ∀ cpt ∈ (rest.drop (countRun (isMarkCpt data) rest)).takeWhile (isWordCpt data),
        isUpperCpt data category cpt = true ∧ isLowerCpt data category cpt = false := by
  have past := ends.past_marks
  obtain ⟨j, low, here, after, rfl⟩ := ends
  have behind := countRun_drop_pos.mpr here
  generalize marked : countRun (isMarkCpt data) rest = m at past
  have stops := not_holdsAt_countRun (isWordCpt data) (rest.drop m)
  rw [holdsAt_drop] at stops
  constructor
  · intro same
    have notLower : ∀ i < countRun (isWordCpt data) (rest.drop m),
        holdsAt (isLowerCpt data category) rest (m + i) = false := by
      intro i
      induction i using Nat.strong_induction_on with
      | _ i ih =>
        intro inside
        rw [← Bool.not_eq_true]
        intro lower
        -- the first place that is not a capital comes in reach of the capitals before it
        have reached : m + i ≤ countRun (isUpperCpt data category) rest := by
          refine le_countRun fun k early => ?_
          rcases lt_or_ge k m with isMark | late
          · exact holdsAt_mono mark_upper (holdsAt_of_lt (Nat.lt_of_lt_of_eq isMark marked.symm))
          · obtain ⟨k, rfl⟩ := Nat.exists_eq_add_of_le late
            have word := @holdsAt_of_lt _ (isWordCpt data) (rest.drop m) k (by omega)
            have small := ih k (by omega) (by omega)
            rw [holdsAt_drop] at word
            obtain ⟨cpt, there, isWord⟩ := (Option.any_eq_true _ _).mp word
            rw [holdsAt, there] at small ⊢
            exact capital_of_word isWord small
        have far : m + i ≤ j := by
          by_contra short
          rw [after _ (Nat.lt_of_not_le short) reached] at lower
          contradiction
        omega
    intro cpt member
    obtain ⟨i, inside, rfl⟩ := getElem_of_mem member
    have word := mem_takeWhile_imp member
    have small := notLower i inside
    have place : i < (rest.drop m).length := Nat.lt_of_lt_of_le inside (countRun_le _ _)
    rw [← holdsAt_drop, holdsAt, List.getElem?_eq_getElem place, ← ( takeWhile_prefix (isWordCpt data)).getElem inside] at small
    exact ⟨capital_of_word word small, small⟩
  · intro capitals
    have notLower (i : Nat) (low : i ≤ countRun (isWordCpt data) (rest.drop m)) :
        holdsAt (isLowerCpt data category) rest (m + i) = false := by
      rcases Nat.lt_or_eq_of_le low with inside | rfl
      · have place : i < (rest.drop m).length := lt_of_lt_of_le inside (countRun_le _ _)
        rw [← holdsAt_drop, holdsAt, List.getElem?_eq_getElem place, ← ( takeWhile_prefix (isWordCpt data)).getElem inside]
        exact (capitals _ (getElem_mem inside)).2
      · rw [← Bool.not_eq_true]
        intro lower
        rw [holdsAt_mono lower_word lower] at stops
        contradiction
    have uppers : countRun (isUpperCpt data category) rest ≤
        m + countRun (isWordCpt data) (rest.drop m) := by
      by_contra long
      rw [holdsAt_mono upper_word (holdsAt_of_lt (Nat.lt_of_not_le long))] at stops
      contradiction
    have before : j < m := by
      by_contra late
      obtain ⟨i, rfl⟩ := Nat.exists_eq_add_of_le (Nat.le_of_not_lt late)
      rw [notLower i (by omega)] at here
      contradiction
    by_contra long
    have lower := @holdsAt_of_lt _ (isLowerCpt data category) (rest.drop j) (m - j) (by omega)
    rw [holdsAt_drop, Nat.add_sub_cancel' (Nat.le_of_lt before)] at lower
    rw [← Nat.add_zero m, notLower 0 (Nat.zero_le _)] at lower
    contradiction

variable (tables : data.MarkTables)
include tables

theorem mark_other (cpt : Nat) (mark : isMarkCpt data cpt = true) : isOtherCpt data cpt = true := by
  obtain ⟨letter, number, white⟩ := tables.mark cpt mark
  rw [isLetterCpt] at letter
  rw [isNumberCpt] at number
  rw [isWhitespaceCpt] at white
  rw [isOtherCpt, CptFlags.isOther, letter, number, white]
  rfl

omit tables in
theorem letter_not_other {cpt : Nat} (letter : isLetterCpt data cpt = true) :
    isOtherCpt data cpt = false := by
  rw [isLetterCpt] at letter
  rw [isOtherCpt, CptFlags.isOther, letter]
  simp

theorem letter_not_newline {cpt : Nat} (letter : isLetterCpt data cpt = true) :
    isNewline cpt = false := by
  rw [← Bool.not_eq_true]
  intro newline
  rw [(tables.whitespace cpt (.inr newline)).2.1] at letter
  contradiction

theorem endingLength_pos {cpt : Nat} {behind : List Nat}
    (some_ : 0 < endingLength data (cpt :: behind)) :
    cpt = 39 ∧ 1 < endingLength data (cpt :: behind) ∧
      holdsAt (isLetterCpt data) behind 0 = true := by
  have letter {next : Nat}
      (member : data.toLower next ∈ [115, 116, 109, 100, 114, 101, 118, 108]) :
      isLetterCpt data next = true := by
    obtain ⟨small, capital⟩ := tables.endings _ member
    rcases (tables.lower _ member next).mp rfl with same | same
    · rw [same]
      exact small
    · rw [same]
      exact capital
  rw [endingLength] at some_ ⊢
  unfold contraction at some_ ⊢
  split at some_
  · rename_i next others same
    obtain ⟨rfl, rfl⟩ := List.cons.inj same
    split at some_
    · rename_i short
      rw [if_pos short]
      refine ⟨rfl, Nat.lt_succ_self 1, letter ?_⟩
      simp only [mem_cons, not_mem_nil, or_false] at short ⊢
      omega
    · rename_i long
      rw [if_neg long]
      split at some_
      · split at some_
        · rename_i two
          rw [if_pos two]
          refine ⟨rfl, by decide, letter ?_⟩
          simp only [mem_cons, not_mem_nil, or_false, Prod.mk.injEq] at two ⊢
          omega
        · contradiction
      · contradiction
  · contradiction

theorem symbols_eq_iff {e : Nat} (past : countRun (isMarkCpt data) rest ≤ e)
    (word : ∀ i, countRun (isMarkCpt data) rest ≤ i → i < e →
      holdsAt (isWordCpt data) rest i = true) :
    e + endingLength data (rest.drop e) = countRun (isOtherCpt data) rest +
        countRun isNewline (rest.drop (countRun (isOtherCpt data) rest)) ↔
      e = countRun (isMarkCpt data) rest ∧
        ∀ cpt ∈ (rest.drop (countRun (isMarkCpt data) rest)).head?,
          isOtherCpt data cpt = false ∧ isNewline cpt = false := by
  have marks : countRun (isMarkCpt data) rest ≤ countRun (isOtherCpt data) rest :=
    le_countRun fun i inside => holdsAt_mono (mark_other tables) (holdsAt_of_lt inside)
  have noMark := not_holdsAt_countRun (isMarkCpt data) rest
  generalize countRun (isMarkCpt data) rest = m at past word marks noMark
  -- the symbols are the marks and those that follow
  have others : countRun (isOtherCpt data) rest = m + countRun (isOtherCpt data) (rest.drop m) := by
    rw [countRun_drop marks, Nat.add_sub_cancel' marks]
  rw [others, ← drop_drop]
  rw [← head?_drop_any] at noMark
  cases behind : rest.drop m with
  | nil =>
    have same : e = m := by
      refine Nat.le_antisymm ?_ past
      by_contra long
      have inWord := word m (Nat.le_refl m) (Nat.lt_of_not_le long)
      rw [← head?_drop_any, behind] at inWord
      contradiction
    rw [same, behind]
    exact iff_of_true rfl ⟨rfl, fun cpt member => by contradiction⟩
  | cons cpt tail =>
    rw [behind, List.head?_cons, Option.any_some] at noMark
    constructor
    · intro same
      have stays : e = m := by
        refine Nat.le_antisymm ?_ past
        by_contra long
        have inWord := word m (Nat.le_refl m) (Nat.lt_of_not_le long)
        rw [← head?_drop_any, behind, List.head?_cons, Option.any_some, isWordCpt, noMark,
          Bool.false_or, isKimiLetter, Bool.and_eq_true] at inWord
        have notOther := letter_not_other inWord.1
        have notNewline := letter_not_newline tables inWord.1
        rw [countRun_cons_eq_zero.mpr notOther, drop_zero,
          countRun_cons_eq_zero.mpr notNewline] at same
        omega
      rw [stays, behind] at same
      have noEnding : endingLength data (cpt :: tail) = 0 := by
        refine Nat.eq_zero_of_not_pos fun some_ => ?_
        obtain ⟨quote, long, letter⟩ := endingLength_pos tables some_
        rw [← countRun_drop_pos] at letter
        obtain ⟨next, after, rfl⟩ := exists_cons_of_length_pos
          (lt_of_lt_of_le letter (countRun_le _ tail))
        have isLetter := countRun_pos.mp letter
        have notOther := letter_not_other isLetter
        have notNewline := letter_not_newline tables isLetter
        have short : countRun (isOtherCpt data) (cpt :: next :: after) = 1 := by
          rw [countRun_cons, quote, if_pos tables.apostropheOther.1,
            countRun_cons_eq_zero.mpr notOther]
        rw [short, drop_succ_cons, drop_zero,
          countRun_cons_eq_zero.mpr notNewline] at same
        omega
      have noOthers : countRun (isOtherCpt data) (cpt :: tail) = 0 := by omega
      rw [noOthers, drop_zero] at same
      have noNewlines : countRun isNewline (cpt :: tail) = 0 := by omega
      refine ⟨stays, fun other member => ?_⟩
      rw [← Option.some.inj member]
      exact ⟨countRun_cons_eq_zero.mp noOthers, countRun_cons_eq_zero.mp noNewlines⟩
    · rintro ⟨rfl, stops⟩
      obtain ⟨notOther, notNewline⟩ := stops cpt rfl
      have noEnding : endingLength data (cpt :: tail) = 0 := by
        refine Nat.eq_zero_of_not_pos fun some_ => ?_
        rw [(endingLength_pos tables some_).1, tables.apostropheOther.1] at notOther
        contradiction
      rw [behind, noEnding, countRun_cons_eq_zero.mpr notOther, drop_zero,
        countRun_cons_eq_zero.mpr notNewline]

def letterLength (data : UnicodeData) (word : List Nat) : Nat :=
  countRun (isKimiLetter data) word +
    endingLength data (word.drop (countRun (isKimiLetter data) word))

theorem takeKimiK2_cons (cpt : Nat) (rest : List Nat) :
    takeKimiK2 data (cpt :: rest) =
      if unicodeCptIsHan cpt = true then [countRun unicodeCptIsHan (cpt :: rest)]
      else if isKimiLetter data cpt = true then [letterLength data (cpt :: rest)]
      else if isLeadCpt data cpt = true ∧ rest.head?.any (isKimiLetter data) = true then
        [1 + letterLength data rest]
      else if isNumberCpt data cpt = true then digitGroups (countRun (isNumberCpt data) (cpt :: rest))
      else [takeSymbol data (cpt :: rest)] := by
  have letters (xs : List Nat) :
      countWhile (fun cpt => (data.cptFlags cpt).isLetter && !unicodeCptIsHan cpt) xs =
        countRun (isKimiLetter data) xs := rfl
  have here : (cpt :: rest)[0]?.any (fun cpt => (data.cptFlags cpt).isLetter &&
      !unicodeCptIsHan cpt) = isKimiLetter data cpt := rfl
  have next : (cpt :: rest)[1]?.any (fun cpt => (data.cptFlags cpt).isLetter &&
      !unicodeCptIsHan cpt) = rest.head?.any (isKimiLetter data) := by
    rw [List.getElem?_cons_succ, ← List.head?_eq_getElem?]
    rfl
  have leads : (!((cpt :: rest)[0]?.any isNewline || (flagsAt data (cpt :: rest) 0).isLetter ||
      (flagsAt data (cpt :: rest) 0).isNumber)) = isLeadCpt data cpt := rfl
  unfold takeKimiK2
  dsimp only
  rw [next, leads]
  split
  · rename_i han
    rw [if_pos (show unicodeCptIsHan cpt = true from han)]
    rfl
  rename_i notHan
  rw [if_neg (show ¬ unicodeCptIsHan cpt = true from notHan)]
  by_cases letter : isKimiLetter data cpt = true
  · have notLead : ¬ isLeadCpt data cpt = true := by
      rw [isKimiLetter, Bool.and_eq_true] at letter
      rw [isLeadCpt, letter.1]
      simp
    have some_ : 0 < countRun (isKimiLetter data) (cpt :: rest) := countRun_pos.mpr letter
    rw [if_neg notLead, if_pos letter, if_pos ⟨.inl letter, some_⟩,
      zero_add]
    rfl
  rw [if_neg letter]
  by_cases behind : isLeadCpt data cpt = true ∧ rest.head?.any (isKimiLetter data) = true
  · have some_ : 0 < countRun (isKimiLetter data) rest := countRun_pos.mpr behind.2
    rw [if_pos behind.1, drop_succ_cons, if_pos behind,
      if_pos ⟨.inr behind, some_⟩, add_comm 1, add_assoc,
      add_comm 1, ← add_assoc, add_comm _ 1]
    rfl
  rw [if_neg (fun out => behind (out.1.resolve_left letter))]
  split
  · rename_i number
    rw [if_pos (show isNumberCpt data cpt = true from number)]
    rfl
  rename_i notNumber
  rw [if_neg (show ¬ isNumberCpt data cpt = true from notNumber), takeSymbol, takeOther,
    assignedOther_eq tables.toTables, ← spaceLength]
  simp only [other_iff tables.toTables]
  split <;> rfl

def behindLead (data : UnicodeData) (cpt : Nat) (rest : List Nat) (r : Regex Nat) : Option Nat :=
  if isLeadCpt data cpt then (r.firstMatch rest).map (1 + ·) else none

def wordMatch (data : UnicodeData) (category : Nat → LetterCategory) (cpt : Nat)
    (rest : List Nat) : Option Nat :=
  ((behindLead data cpt rest (lowerWord data category)).or
    ((lowerWord data category).firstMatch (cpt :: rest))).or
  ((behindLead data cpt rest (upperWord data category)).or
    ((upperWord data category).firstMatch (cpt :: rest)))

omit tables in
theorem firstMatch_kimiPattern (cpt : Nat) (rest : List Nat) :
    (kimiPattern data category).firstMatch (cpt :: rest) =
      if unicodeCptIsHan cpt = true then some (countRun unicodeCptIsHan (cpt :: rest))
      else (wordMatch data category cpt rest).or
        (((rep (isNumberCpt data) 1 (some 3)).firstMatch (cpt :: rest)).or
          ((symbolsAndSpaces data).firstMatch (cpt :: rest))) := by
  have lead (r : Regex Nat) : (seq (opt (one (isLeadCpt data))) r).firstMatch (cpt :: rest) =
      (behindLead data cpt rest r).or (r.firstMatch (cpt :: rest)) := by
    rw [firstMatch_opt_seq, firstMatch_one_seq]
    rfl
  rw [kimiPattern, firstMatch_alt, firstMatch_alt, firstMatch_alt, firstMatch_alt, lead, lead,
    firstMatch_plus, or_ite, wordMatch]
  by_cases han : unicodeCptIsHan cpt = true
  · have some_ : 0 < countRun unicodeCptIsHan (cpt :: rest) := countRun_pos.mpr han
    rw [if_pos han, if_pos some_]
  · rw [if_neg han, countRun_cons_eq_zero.mpr (Bool.eq_false_of_not_eq_true han)]
    simp [Option.or_assoc]

omit tables in
theorem noLower_of_not_word {word : List Nat} (other : holdsAt (isWordCpt data) word 0 = false) :
    NoLower data category word := by
  have noUpper : countRun (isUpperCpt data category) word = 0 := by
    refine Nat.eq_zero_of_not_pos fun some_ => ?_
    rw [holdsAt_mono upper_word (holdsAt_of_lt some_)] at other
    contradiction
  intro i low
  obtain rfl : i = 0 := by omega
  rw [← Bool.not_eq_true]
  intro lower
  rw [holdsAt_mono lower_word lower] at other
  contradiction

theorem firstMatch_not_word {word : List Nat} (other : holdsAt (isWordCpt data) word 0 = false) :
    (lowerWord data category).firstMatch word = none ∧
      (upperWord data category).firstMatch word = none := by
  have none_ := @noLower_of_not_word _ category _ other
  refine ⟨(firstMatch_lowerWord tables word).2 none_, ?_⟩
  rw [firstMatch_capitals tables none_, if_neg]
  intro some_
  rw [holdsAt_mono word_of_letter (holdsAt_of_lt some_)] at other
  contradiction

theorem letters_match {word : List Nat} (some_ : 0 < countRun (isKimiLetter data) word) :
    ∃ n, 0 < n ∧ ((lowerWord data category).firstMatch word).or
        ((upperWord data category).firstMatch word) = some n ∧
      (n = letterLength data word ↔ LettersAgree data category false word) := by
  obtain ⟨found, none_⟩ := @firstMatch_lowerWord _ category tables word
  rcases lowerEnd_or_none data category word with ⟨e, ends⟩ | noLower
  · refine ⟨_, ?_, by rw [found e ends, Option.some_or], lettersAgree_of_end tables false ends⟩
    exact Nat.lt_of_lt_of_le ends.pos (Nat.le_add_right _ _)
  · refine ⟨letterLength data word, Nat.lt_of_lt_of_le some_ (Nat.le_add_right _ _), ?_, ?_⟩
    · rw [none_ noLower, firstMatch_capitals tables noLower, if_pos some_]
      rfl
    · exact iff_of_true rfl ((lettersAgree_of_none false noLower).mpr rfl)

omit tables in
theorem LowerEnd.of_mark {cpt : Nat} {rest : List Nat} (mark : isMarkCpt data cpt = true)
    (none_ : NoLower data category rest) : LowerEnd data category (cpt :: rest) 1 := by
  have upper := @mark_upper _ category cpt mark
  have lower := @mark_lower _ category cpt mark
  refine ⟨0, Nat.zero_le _, lower, fun i late low => ?_, ?_⟩
  · obtain ⟨i, rfl⟩ := Nat.exists_eq_add_of_lt late
    rw [countRun_cons, if_pos upper] at low
    exact none_ (0 + i) (by omega)
  · have stops : countRun (isLowerCpt data category) rest = 0 :=
      countRun_eq_zero ((head?_drop_any _ rest 0).trans (none_ 0 (Nat.zero_le _)))
    rw [drop_zero, countRun_cons, if_pos lower, stops]

theorem mark_lead {cpt : Nat} (mark : isMarkCpt data cpt = true) : isLeadCpt data cpt = true := by
  obtain ⟨letter, number, white⟩ := tables.mark cpt mark
  have notNewline : isNewline cpt = false := by
    rw [← Bool.not_eq_true]
    intro newline
    rw [(tables.whitespace cpt (.inr newline)).1] at white
    contradiction
  rw [isLeadCpt, notNewline, letter, number]
  rfl

omit tables in
theorem lead_not_letter {cpt : Nat} (lead : isLeadCpt data cpt = true) :
    isNewline cpt = false ∧ isLetterCpt data cpt = false ∧ isNumberCpt data cpt = false := by
  rw [isLeadCpt, Bool.not_eq_true', Bool.or_eq_false_iff, Bool.or_eq_false_iff] at lead
  exact ⟨lead.1.1, lead.1.2, lead.2⟩

omit tables in
theorem lead_not_word {cpt : Nat} (rest : List Nat) (lead : isLeadCpt data cpt = true)
    (noMark : isMarkCpt data cpt = false) : holdsAt (isWordCpt data) (cpt :: rest) 0 = false := by
  show isWordCpt data cpt = false
  rw [isWordCpt, noMark, isKimiLetter, (lead_not_letter lead).2.1]
  rfl

theorem wordMatch_letter {cpt : Nat} {rest : List Nat} (letter : isKimiLetter data cpt = true) :
    ∃ n, 0 < n ∧ wordMatch data category cpt rest = some n ∧
      (n = letterLength data (cpt :: rest) ↔ LettersAgree data category false (cpt :: rest)) := by
  have notLead : ¬ isLeadCpt data cpt = true := by
    intro lead
    rw [isKimiLetter, (lead_not_letter lead).2.1] at letter
    contradiction
  rw [wordMatch, behindLead, behindLead, if_neg notLead, if_neg notLead, Option.none_or, Option.none_or]
  exact letters_match tables (countRun_pos.mpr letter)

theorem wordMatch_lead {cpt : Nat} {rest : List Nat} (lead : isLeadCpt data cpt = true)
    (letter : rest.head?.any (isKimiLetter data) = true) :
    ∃ n, 0 < n ∧ wordMatch data category cpt rest = some n ∧
      (n = 1 + letterLength data rest ↔
        LettersAgree data category (isMarkCpt data cpt) rest) := by
  have some_ : 0 < countRun (isKimiLetter data) rest := countRun_pos.mpr letter
  rw [wordMatch, behindLead, behindLead, if_pos lead, if_pos lead]
  cases mark : isMarkCpt data cpt with
  | false =>
    obtain ⟨noLower, noUpper⟩ := @firstMatch_not_word _ category tables _
      (lead_not_word rest lead mark)
    obtain ⟨n, -, found, agrees⟩ := @letters_match _ category tables _ some_
    refine ⟨1 + n, by omega, ?_, ?_⟩
    · rw [noLower, noUpper, Option.or_none, Option.or_none, ← Option.map_or, found]
      rfl
    · rw [← agrees]
      omega
  | true =>
    obtain ⟨found, none_⟩ := @firstMatch_lowerWord _ category tables rest
    rcases lowerEnd_or_none data category rest with ⟨e, ends⟩ | noLower
    · refine ⟨1 + (e + endingLength data (rest.drop e)), by omega, ?_, ?_⟩
      · rw [found e ends]
        rfl
      · rw [← lettersAgree_of_end tables true ends, letterLength]
        omega
    · have alone := (@firstMatch_lowerWord _ category tables (cpt :: rest)).1 1
        (.of_mark mark noLower)
      have noEnding : endingLength data rest = 0 :=
        endingLength_word tables (holdsAt_mono word_of_letter (holdsAt_of_lt some_))
      rw [drop_succ_cons, drop_zero, noEnding] at alone
      refine ⟨1, Nat.one_pos, ?_, ?_⟩
      · rw [none_ noLower, alone]
        rfl
      · rw [lettersAgree_of_none true noLower, letterLength]
        exact iff_of_false (by omega) Bool.noConfusion

theorem wordMatch_marks {cpt : Nat} {rest : List Nat} (lead : isLeadCpt data cpt = true)
    (noLetter : rest.head?.any (isKimiLetter data) = false)
    (marks : isMarkCpt data cpt = true ∨ rest.head?.any (isMarkCpt data) = true) :
    ∃ e, wordMatch data category cpt rest = some (1 + (e + endingLength data (rest.drop e))) ∧
      countRun (isMarkCpt data) rest ≤ e ∧
      (∀ i, countRun (isMarkCpt data) rest ≤ i → i < e → holdsAt (isWordCpt data) rest i = true) ∧
      (e = countRun (isMarkCpt data) rest ↔
        ∀ other ∈ (rest.drop (countRun (isMarkCpt data) rest)).takeWhile (isWordCpt data),
          isUpperCpt data category other = true ∧ isLowerCpt data category other = false) := by
  obtain ⟨found, none_⟩ := @firstMatch_lowerWord _ category tables rest
  rw [wordMatch, behindLead, behindLead, if_pos lead]
  rcases lowerEnd_or_none data category rest with ⟨e, ends⟩ | noLower
  · refine ⟨e, ?_, ends.past_marks, fun i _ inside => ends.inWord inside, ends.at_marks⟩
    rw [found e ends]
    rfl
  · have noMark : rest.head?.any (isMarkCpt data) = false := by
      rw [← Bool.not_eq_true]
      intro mark
      have lower := holdsAt_mono (@mark_lower _ category)
        ((head?_drop_any _ rest 0).symm.trans mark)
      rw [noLower 0 (Nat.zero_le _)] at lower
      contradiction
    have mark := marks.resolve_right (by rw [noMark]; exact Bool.false_ne_true)
    have alone := (@firstMatch_lowerWord _ category tables (cpt :: rest)).1 1
      (.of_mark mark noLower)
    have noMarks : countRun (isMarkCpt data) rest = 0 := countRun_eq_zero noMark
    have noWord : rest.takeWhile (isWordCpt data) = [] := by
      refine eq_nil_of_length_eq_zero (@countRun_eq_zero _ (isWordCpt data) _ ?_)
      cases rest with
      | nil => rfl
      | cons next others =>
        rw [List.head?_cons, Option.any_some] at noMark noLetter ⊢
        rw [isWordCpt, noMark, noLetter]
        rfl
    rw [noMarks]
    refine ⟨0, ?_, le_refl 0, fun i _ inside => by contradiction, ?_⟩
    · rw [none_ noLower, alone, zero_add]
      rfl
    · rw [drop_zero, noWord]
      exact iff_of_true rfl fun other member => by contradiction

theorem takeSymbol_marks {cpt : Nat} {rest : List Nat} (lead : isLeadCpt data cpt = true)
    (marks : isMarkCpt data cpt = true ∨ rest.head?.any (isMarkCpt data) = true) :
    takeSymbol data (cpt :: rest) =
      if cpt = 32 ∨ isWhitespaceCpt data cpt = false then
        1 + (countRun (isOtherCpt data) rest +
          countRun isNewline (rest.drop (countRun (isOtherCpt data) rest)))
      else 1 := by
  obtain ⟨notNewline, notLetter, notNumber⟩ := lead_not_letter lead
  by_cases space : cpt = 32
  · have atSpace : spaceLength (cpt :: rest) = 1 := if_pos (congrArg some space)
    have mark : rest.head?.any (isMarkCpt data) = true := by
      refine marks.resolve_left fun mark => ?_
      have solid := (tables.mark cpt mark).2.2
      rw [space, (tables.whitespace 32 (.inl rfl)).1] at solid
      contradiction
    have some_ : 0 < countRun (isOtherCpt data) rest := by
      obtain ⟨next, here, isMark⟩ := (Option.any_eq_true _ _).mp mark
      exact countRun_pos.mpr ((Option.any_eq_true _ _).mpr ⟨next, here, mark_other tables _ isMark⟩)
    rw [takeSymbol, atSpace, drop_succ_cons, drop_zero, if_pos some_, if_pos (.inl space),
      add_comm 1 (countRun (isOtherCpt data) rest), drop_succ_cons]
    omega
  · have noSpace : spaceLength (cpt :: rest) = 0 := if_neg fun same => space (Option.some.inj same)
    cases white : isWhitespaceCpt data cpt with
    | false =>
      have other : isOtherCpt data cpt = true := by
        rcases class_of_not_whitespace white with isLetter | isNumber | isOther
        · rw [notLetter] at isLetter
          contradiction
        · rw [notNumber] at isNumber
          contradiction
        · exact isOther
      rw [takeSymbol, noSpace, drop_zero, countRun_cons, if_pos other,
        if_pos (Nat.succ_pos _), if_pos (.inr rfl), zero_add, drop_succ_cons]
      omega
    | true =>
      have mark : rest.head?.any (isMarkCpt data) = true := by
        refine marks.resolve_left fun mark => ?_
        rw [(tables.mark cpt mark).2.2] at white
        contradiction
      obtain ⟨next, others, rfl⟩ : ∃ next others, rest = next :: others := by
        cases rest with
        | nil => contradiction
        | cons next others => exact ⟨next, others, rfl⟩
      have solid : isWhitespaceCpt data next = false := (tables.mark next mark).2.2
      have notOther : isOtherCpt data cpt = false := by
        rw [isWhitespaceCpt] at white
        rw [isOtherCpt, CptFlags.isOther, white]
        rfl
      have single : countRun (isWhitespaceCpt data) (cpt :: next :: others) = 1 := by
        rw [countRun_cons, if_pos white, countRun_cons_eq_zero.mpr solid]
      have breaks : takeLineBreaks data (cpt :: next :: others) =
          takeWhitespace data (cpt :: next :: others) := by
        have run : (cpt :: next :: others).takeWhile (isWhitespaceCpt data) = [cpt] := by
          rw [takeWhile_cons_of_pos white,
            takeWhile_cons_of_neg (by rw [solid]; exact Bool.false_ne_true)]
        have none_ : ¬ 0 < [cpt].length - countRun (fun cpt => !isNewline cpt) [cpt].reverse := by
          rw [reverse_singleton, countRun_cons, notNewline]
          exact Nat.not_lt_zero _
        show (if 0 < ((cpt :: next :: others).takeWhile (isWhitespaceCpt data)).length -
          countRun (fun cpt => !isNewline cpt)
            ((cpt :: next :: others).takeWhile (isWhitespaceCpt data)).reverse then _ else _) = _
        rw [run, if_neg none_]
      rw [takeSymbol, noSpace, drop_zero, countRun_cons_eq_zero.mpr notOther,
        if_neg (Nat.lt_irrefl 0), breaks,
        (firstMatch_singleWhitespace single (by simp)).2, if_neg]
      exact fun out => out.elim space Bool.noConfusion

theorem wordMatch_none {cpt : Nat} {rest : List Nat}
    (noLetter : isKimiLetter data cpt = false) (noMark : isMarkCpt data cpt = false)
    (behind : isLeadCpt data cpt = true → holdsAt (isWordCpt data) rest 0 = false) :
    wordMatch data category cpt rest = none := by
  have here : holdsAt (isWordCpt data) (cpt :: rest) 0 = false := by
    show isWordCpt data cpt = false
    rw [isWordCpt, noMark, noLetter]
    rfl
  obtain ⟨noLower, noUpper⟩ := @firstMatch_not_word _ category tables _ here
  rw [wordMatch, noLower, noUpper, behindLead, behindLead]
  split
  · rename_i lead
    obtain ⟨noLowerBehind, noUpperBehind⟩ :=
      @firstMatch_not_word _ category tables _ (behind lead)
    rw [noLowerBehind, noUpperBehind]
    rfl
  · rfl

theorem number_classes {cpt : Nat} (number : isNumberCpt data cpt = true) :
    unicodeCptIsHan cpt = false ∧ isKimiLetter data cpt = false ∧ isLeadCpt data cpt = false ∧
      isMarkCpt data cpt = false := by
  have notHan : unicodeCptIsHan cpt = false := by
    rw [← Bool.not_eq_true]
    intro han
    rw [tables.han cpt han] at number
    contradiction
  have notLetter : isKimiLetter data cpt = false := by
    rw [← Bool.not_eq_true]
    intro letter
    rw [isKimiLetter, Bool.and_eq_true] at letter
    rw [tables.apart cpt letter.1] at number
    contradiction
  have notLead : isLeadCpt data cpt = false := by
    rw [isLeadCpt, number, Bool.or_true]
    rfl
  refine ⟨notHan, notLetter, notLead, ?_⟩
  rw [← Bool.not_eq_true]
  intro mark
  rw [mark_lead tables mark] at notLead
  contradiction

theorem kimi_number {xs : List Nat} (number : 0 < countRun (isNumberCpt data) xs) :
    (kimiPattern data category).firstMatch xs = some (min 3 (countRun (isNumberCpt data) xs)) ∧
      TokenAgrees data category xs := by
  cases xs with
  | nil => contradiction
  | cons cpt rest =>
    obtain ⟨notHan, notLetter, notLead, notMark⟩ := number_classes tables (countRun_pos.mp number)
    constructor
    · rw [firstMatch_kimiPattern, if_neg (by rw [notHan]; exact Bool.false_ne_true),
        wordMatch_none tables notLetter notMark fun lead => by
          rw [notLead] at lead
          contradiction,
        firstMatch_rep, if_pos (by omega)]
      rfl
    · rw [TokenAgrees, notHan, notLetter, notLead, notMark]
      trivial

theorem kimi_digits (n : Nat) (xs : List Nat) (count : countRun (isNumberCpt data) xs = n) :
    AtStarts (TokenAgrees data category) xs (digitGroups n) := by
  have agrees {ys : List Nat} (number : 0 < countRun (isNumberCpt data) ys) :=
    (@kimi_number _ category tables _ number).2
  induction n using digitGroups.induct generalizing xs with
  | case1 => trivial
  | case2 => exact ⟨agrees (by omega), trivial⟩
  | case3 => exact ⟨agrees (by omega), trivial⟩
  | case4 n ih =>
    refine ⟨agrees (by omega), ih _ ?_⟩
    rw [countRun_drop (by omega), count]
    rfl

omit tables in
/-- What a round takes: matches that follow each other, at which something holds, or one length
that is not the one of the match where it does not hold. -/
def RoundFor (r : Regex Nat) (agrees : List Nat → Prop) (rest lengths : List Nat) : Prop :=
  (lengths ≠ [] ∧ Successive r rest lengths ∧ AtStarts agrees rest lengths) ∨
    (¬ agrees rest ∧ ∃ taken n, lengths = [taken] ∧ taken ≠ n ∧ 0 < n ∧ r.firstMatch rest = some n)

omit tables in
theorem roundFor_single {r : Regex Nat} {agrees : List Nat → Prop} {rest : List Nat} {taken n : Nat}
    (some_ : 0 < n) (found : r.firstMatch rest = some n) (same : n = taken ↔ agrees rest) :
    RoundFor r agrees rest [taken] := by
  by_cases holds : agrees rest
  · rw [same.mpr holds] at some_ found
    exact .inl ⟨cons_ne_nil _ _, successive_singleton some_ found, holds, trivial⟩
  · exact .inr ⟨holds, taken, n, rfl, fun equal => holds (same.mp equal.symm), some_, found⟩

omit tables in
theorem takeSymbol_pos {rest : List Nat} (nonempty : rest ≠ []) : 0 < takeSymbol data rest := by
  rw [takeSymbol]
  split
  · omega
  · exact (takeLineBreaks_bounds nonempty).1

omit tables in
theorem tokenAgrees_cons (cpt : Nat) (rest : List Nat) :
    TokenAgrees data category (cpt :: rest) ↔
      if unicodeCptIsHan cpt = true then True
      else if isKimiLetter data cpt = true then LettersAgree data category false (cpt :: rest)
      else if isLeadCpt data cpt = true ∧ rest.head?.any (isKimiLetter data) = true then
        LettersAgree data category (isMarkCpt data cpt) rest
      else if isMarkCpt data cpt = true ∨
          (isLeadCpt data cpt = true ∧ rest.head?.any (isMarkCpt data) = true) then
        MarksAgree data category cpt rest
      else True := by
  simp [TokenAgrees]

theorem marks_agree {cpt : Nat} {rest : List Nat} (lead : isLeadCpt data cpt = true)
    (noLetter : rest.head?.any (isKimiLetter data) = false)
    (marks : isMarkCpt data cpt = true ∨ rest.head?.any (isMarkCpt data) = true) :
    ∃ n, 0 < n ∧ wordMatch data category cpt rest = some n ∧
      (n = takeSymbol data (cpt :: rest) ↔ MarksAgree data category cpt rest) := by
  obtain ⟨e, found, past, word, capitals⟩ := @wordMatch_marks _ category tables _ _ lead noLetter
    marks
  refine ⟨_, by omega, found, ?_⟩
  rw [takeSymbol_marks tables lead marks]
  by_cases solid : cpt = 32 ∨ isWhitespaceCpt data cpt = false
  · rw [if_pos solid, Nat.add_left_cancel_iff, symbols_eq_iff tables past word, capitals]
    unfold MarksAgree
    rw [← drop_countRun]
    exact ⟨fun ⟨all, stops⟩ => ⟨solid, stops, all⟩, fun ⟨_, stops, all⟩ => ⟨all, stops⟩⟩
  · have mark : rest.head?.any (isMarkCpt data) = true := by
      refine marks.resolve_left fun mark => solid (.inr ?_)
      exact (tables.mark cpt mark).2.2
    have some_ : 0 < countRun (isMarkCpt data) rest := countRun_pos.mpr mark
    rw [if_neg solid]
    exact iff_of_false (by omega) fun out => solid out.1

theorem kimi_round {rest : List Nat} (nonempty : rest ≠ []) :
    RoundFor (kimiPattern data category) (TokenAgrees data category) rest
      (takeKimiK2 data rest) := by
  obtain ⟨cpt, tail, rfl⟩ := exists_cons_of_ne_nil nonempty
  have pattern := @firstMatch_kimiPattern data category cpt tail
  rw [takeKimiK2_cons tables]
  by_cases han : unicodeCptIsHan cpt = true
  · rw [if_pos han] at pattern ⊢
    have some_ : 0 < countRun unicodeCptIsHan (cpt :: tail) := countRun_pos.mpr han
    refine roundFor_single some_ pattern (iff_of_true rfl ?_)
    rw [tokenAgrees_cons, if_pos han]
    trivial
  rw [if_neg han] at pattern ⊢
  by_cases letter : isKimiLetter data cpt = true
  · obtain ⟨n, some_, found, agrees⟩ := @wordMatch_letter _ category tables _ tail letter
    rw [found] at pattern
    rw [if_pos letter]
    refine roundFor_single some_ pattern ?_
    rw [agrees, tokenAgrees_cons, if_neg han, if_pos letter]
  rw [if_neg letter]
  by_cases behind : isLeadCpt data cpt = true ∧ tail.head?.any (isKimiLetter data) = true
  · obtain ⟨n, some_, found, agrees⟩ := @wordMatch_lead _ category tables _ _ behind.1 behind.2
    rw [found] at pattern
    rw [if_pos behind]
    refine roundFor_single some_ pattern ?_
    rw [agrees, tokenAgrees_cons, if_neg han, if_neg letter, if_pos behind]
  rw [if_neg behind]
  by_cases number : isNumberCpt data cpt = true
  · have run : 0 < countRun (isNumberCpt data) (cpt :: tail) := countRun_pos.mpr number
    rw [if_pos number]
    refine .inl ⟨digitGroups_ne_nil run, ?_, kimi_digits tables _ _ rfl⟩
    exact successive_digits (fun xs some_ => (kimi_number tables some_).1) _ _ rfl
  rw [if_neg number]
  by_cases marks : isMarkCpt data cpt = true ∨
      (isLeadCpt data cpt = true ∧ tail.head?.any (isMarkCpt data) = true)
  · have lead : isLeadCpt data cpt = true := marks.elim (mark_lead tables) And.left
    have noLetter : tail.head?.any (isKimiLetter data) = false := by
      rw [← Bool.not_eq_true]
      exact fun isLetter => behind ⟨lead, isLetter⟩
    obtain ⟨n, some_, found, agrees⟩ := @marks_agree _ category tables _ _ lead noLetter
      (marks.imp_right And.right)
    rw [found] at pattern
    refine roundFor_single some_ pattern ?_
    rw [agrees, tokenAgrees_cons, if_neg han, if_neg letter, if_neg behind, if_pos marks]
  · have notLetter : ¬ isLetterCpt data cpt = true := by
      intro isLetter
      rw [isKimiLetter, isLetter, Bool.eq_false_of_not_eq_true han] at letter
      exact letter rfl
    have noWord : wordMatch data category cpt tail = none := by
      refine wordMatch_none tables (Bool.eq_false_of_not_eq_true letter)
        (Bool.eq_false_of_not_eq_true fun mark => marks (.inl mark)) fun lead => ?_
      rw [← Bool.not_eq_true, ← head?_drop_any]
      intro inWord
      obtain ⟨next, here, isWord⟩ := (Option.any_eq_true _ _).mp inWord
      rw [isWordCpt, Bool.or_eq_true] at isWord
      rcases isWord with isMark | isLetter
      · exact marks (.inr ⟨lead, (Option.any_eq_true _ _).mpr ⟨next, here, isMark⟩⟩)
      · exact behind ⟨lead, (Option.any_eq_true _ _).mpr ⟨next, here, isLetter⟩⟩
    rw [noWord, firstMatch_rep, countRun_cons_eq_zero.mpr (Bool.eq_false_of_not_eq_true number),
      firstMatch_symbolsAndSpaces tables.toTables notLetter number] at pattern
    refine roundFor_single (takeSymbol_pos nonempty) pattern (iff_of_true rfl ?_)
    rw [tokenAgrees_cons, if_neg han, if_neg letter, if_neg behind, if_neg marks]
    trivial

omit tables in
/-- Rounds that take the matches of an expression where something holds split a word as it does if
it holds at every match, and otherwise differ from it in a length. -/
theorem splitRounds_parts {r : Regex Nat} {agrees : List Nat → Prop} {take : List Nat → List Nat}
    (rounds : ∀ rest, rest ≠ [] → RoundFor r agrees rest (take rest)) {fuel : Nat}
    {word : List Nat} (enough : word.length ≤ fuel) :
    (AtStarts agrees word (r.split word) ∧ splitRounds take fuel word = r.split word) ∨
      (¬ AtStarts agrees word (r.split word) ∧
        Parted (splitRounds take fuel word) (r.split word)) := by
  induction fuel generalizing word with
  | zero =>
    rw [length_eq_zero_iff.mp (Nat.le_zero.mp enough)]
    exact .inl ⟨trivial, rfl⟩
  | succ fuel ih =>
    cases word with
    | nil => exact .inl ⟨trivial, rfl⟩
    | cons cpt rest =>
      rw [splitRounds]
      rcases rounds (cpt :: rest) (cons_ne_nil _ _) with
        ⟨some_, follow, holds⟩ | ⟨not, taken, n, single, differ, some_, found⟩
      · have shorter : ((cpt :: rest).drop (take (cpt :: rest)).sum).length ≤ fuel := by
          obtain ⟨n, others, split⟩ := exists_cons_of_ne_nil some_
          rw [split] at follow ⊢
          have first := follow.1
          rw [length_cons] at enough
          rw [length_drop, length_cons, sum_cons]
          omega
        rw [split_successive follow, atStarts_append]
        refine (ih shorter).imp ?_ ?_
        · exact fun held => ⟨⟨holds, held.1⟩, congrArg (_ ++ ·) held.2⟩
        · exact fun broken => ⟨fun all => broken.1 all.2, broken.2.append_left _⟩
      · rw [single, split_of_match found some_]
        exact .inr ⟨fun all => not all.1, parted_cons differ _ _⟩

end

end

def unicodeRegexSplitCustomKimiK2 (data : UnicodeData) (text : Bytes) (offsets : List Nat) :
    List Nat :=
  splitOffsets (splitWith (takeKimiK2 data)) (unicodeCptsFromUtf8 text) offsets

def accentData : UnicodeData where
  cptFlags cpt := if 0x300 ≤ cpt ∧ cpt ≤ 0x36F then 0x0010 else asciiData.cptFlags cpt
  toLower := asciiData.toLower

def asciiCategory (cpt : Nat) : LetterCategory := if 65 ≤ cpt ∧ cpt ≤ 90 then .lu else .ll

theorem accentData_tables : accentData.MarkTables where
  assigned cpt := by
    simp only [accentData]
    split
    · decide
    · exact asciiData_tables.assigned cpt
  apart cpt letter := by
    simp only [isLetterCpt, isNumberCpt, accentData] at letter ⊢
    split
    · rfl
    · rename_i notAccent
      rw [if_neg notAccent] at letter
      exact asciiData_tables.apart cpt letter
  whitespace cpt white := by
    have notAccent : ¬ (0x300 ≤ cpt ∧ cpt ≤ 0x36F) := by
      rw [isNewline, Bool.or_eq_true, beq_iff_eq, beq_iff_eq] at white
      omega
    simp only [isWhitespaceCpt, isLetterCpt, isNumberCpt, accentData, if_neg notAccent]
    exact asciiData_tables.whitespace cpt white
  apostrophe := by decide
  lower := asciiData_tables.lower
  mark cpt mark := by
    rw [isMarkCpt, Bool.and_eq_true] at mark
    simp only [isLetterCpt, isNumberCpt, isWhitespaceCpt, accentData, asciiData] at mark ⊢
    split_ifs at mark ⊢ <;> first | decide | exact absurd mark.1 (by decide)
  han cpt han := by
    simp only [isNumberCpt, accentData, asciiData]
    split_ifs with accent white digit
    · rfl
    · rfl
    · simp only [unicodeCptIsHan, Bool.or_eq_true, Bool.and_eq_true, decide_eq_true_eq] at han
      omega
    · rfl
    · rfl
  apostropheOther := by decide
  endings := by decide

end LlamaCpp.Vocab
