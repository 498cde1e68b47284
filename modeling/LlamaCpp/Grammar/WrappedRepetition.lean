import LlamaCpp.Grammar.EmptyGroups
import LlamaCpp.Grammar.Repetitions

/-!
# A repetition after all ids

Behind as many names as there are ids, the rules of `"b"{0,3}` are given the ids 0, 1 and 1: the
third rule has the name and the id of the first group, and refers to itself.
-/

set_option autoImplicit false

namespace LlamaCpp.Grammar

open LlamaCpp.Lib List
open Computability

/-- `"b"{0,3}`. -/
def boundedLiteral : List Byte := utf8Bytes "\"b\"\x7b0,3\x7d"

/-- `r::=` with empty groups, `a{0}` and `"b"{0,3}`. -/
def repeatText (k : Nat) : List Byte :=
  [0x72, Ascii.colon, Ascii.colon, Ascii.equals] ++ (emptyGroups k ++ (droppedItem ++ boundedLiteral))

def letterB : List Element := [⟨.char, 0x62⟩]

theorem ItemSteps.visits {tokenize : Tokenize} {fuel : Nat} {text name : List Byte} {depth : Nat}
    {isNested : Bool} {n : Nat} {s next : SequenceState}
    (steps : ItemSteps (loopItem tokenize fuel name depth isNested) n s next)
    (visit : SequenceVisit tokenize fuel text name depth isNested s) :
    SequenceVisit tokenize fuel text name depth isNested next := by
  induction steps with
  | refl => exact visit
  | step found _ ih => exact ih (visit.item found)

theorem generateSymbolId_old {parser : GrammarParser} {baseName : List Byte} {id : Nat}
    (next : parser.nextId = id)
    (old : (GrammarParser.generatedName baseName id, id) ∈ parser.symbolIds) :
    ∃ symbolIds, parser.generateSymbolId baseName = (id, ⟨symbolIds, parser.rules⟩) ∧
      symbolIds.length = parser.symbolIds.length ∧
      (GrammarParser.generatedName baseName id, id) ∈ symbolIds := by
  have found : ∃ known, parser.idOf (GrammarParser.generatedName baseName id) = some known := by
    cases search : parser.idOf (GrammarParser.generatedName baseName id) with
    | some known => exact ⟨known, rfl⟩
    | none => exact absurd (mem_map.mpr ⟨_, old, rfl⟩) (idOf_eq_none search)
  obtain ⟨known, search⟩ := found
  refine ⟨parser.symbolIds.map fun entry =>
    if entry.1 = GrammarParser.generatedName baseName id then
      (GrammarParser.generatedName baseName id, id) else entry, ?_, length_map .., ?_⟩
  · unfold GrammarParser.generateSymbolId
    simp [next, search]
  · exact mem_map.mpr ⟨_, old, if_pos rfl⟩

theorem optionalRules_wrapped {parser : GrammarParser} (all : parser.symbolIds.length = 2 ^ 32)
    (isNew : parser.idOf (GrammarParser.generatedName rName 0) = none)
    (old : (GrammarParser.generatedName rName 1, 1) ∈ parser.symbolIds) (prevRule : List Element) :
    ∃ after, optionalRules rName prevRule false 3 none parser = .ok (some 1, after) ∧
      after.rules[1]? = some (prevRule ++ [⟨.ruleRef, 1⟩] ++ [⟨.alt, 0⟩, ⟨.end, 0⟩]) := by
  have next : parser.nextId = 0 := by rw [GrammarParser.nextId, all, Nat.mod_self]
  have perm := insertName_perm (GrammarParser.generatedName rName 0, 0) parser.symbolIds
  obtain ⟨first, firstStep, sameFirst, -, -⟩ := optionalRules_step
    (generateSymbolId_new next isNew) (by decide) prevRule false 2 none
  have nextFirst : first.nextId = 1 := by
    rw [GrammarParser.nextId, sameFirst, perm.length_eq, length_cons, all]
    rfl
  have oldFirst : (GrammarParser.generatedName rName 1, 1) ∈ first.symbolIds := by
    rw [sameFirst]
    exact perm.mem_iff.mpr (mem_cons_of_mem _ old)
  obtain ⟨ids, generatedFirst, sameLength, inIds⟩ := generateSymbolId_old nextFirst oldFirst
  obtain ⟨second, secondStep, sameSecond, -, -⟩ := optionalRules_step generatedFirst (by decide)
    prevRule false 1 (some 0)
  have nextSecond : second.nextId = 1 := by
    rw [GrammarParser.nextId, sameSecond, sameLength, ← nextFirst, GrammarParser.nextId]
  have oldSecond : (GrammarParser.generatedName rName 1, 1) ∈ second.symbolIds := by
    rw [sameSecond]
    exact inIds
  obtain ⟨more, generatedSecond, -, -⟩ := generateSymbolId_old nextSecond oldSecond
  obtain ⟨third, thirdStep, -, here, -⟩ := optionalRules_step generatedSecond (by decide)
    prevRule false 0 (some 1)
  exact ⟨third, by rw [firstStep, secondStep, thirdStep]; rfl, here⟩

structure IdsUsed (s : SequenceState) : Prop where
  all : s.parser.symbolIds.length = 2 ^ 32
  isNew : s.parser.idOf (GrammarParser.generatedName rName 0) = none
  old : (GrammarParser.generatedName rName 1, 1) ∈ s.parser.symbolIds
  symbol : s.rule.drop s.lastSymStart = letterB
  start : s.lastSymStart ≠ s.rule.length
  counted : s.nPrevRules = 1

theorem repeatText_begins (k : Nat) :
    SequenceVisit none (k + 8) (repeatText k) rName (k + 7) false
      ⟨emptyGroups k ++ (droppedItem ++ boundedLiteral), [], 0, 1, ⟨[(rName, 0)], []⟩⟩ := by
  have text : cStr (repeatText k) = repeatText k := cStr_groups k (by decide) (by decide)
  have first : RuleVisit none (k + 8) (repeatText k) (repeatText k) ⟨[], []⟩ := by
    have atRule : RuleVisit none (k + 8) (repeatText k) (parseSpace (cStr (repeatText k)) true)
      ⟨[], []⟩ := .start
    rw [text] at atRule
    exact atRule
  have begun := SequenceVisit.rule first (cons_ne_nil _ _) rfl rfl rfl
  have noSpace : parseSpace (emptyGroups k ++ (droppedItem ++ boundedLiteral)) true =
      emptyGroups k ++ (droppedItem ++ boundedLiteral) := noSpace_groups k rfl
  exact noSpace ▸ begun

theorem exists_idsUsed {k : Nat} (wraps : k + 2 = 2 ^ 32) :
    ∃ s, SequenceVisit none (k + 8) (repeatText k) rName (k + 7) false s ∧ IdsUsed s := by
  obtain ⟨⟨pos, rule, start, nPrevRules, parser⟩, parsed, atEnd, groups⟩ :=
    itemSteps_groups (droppedItem ++ boundedLiteral) rfl (k + 7) (k + 6) k
      (groupsParsed_start (emptyGroups k ++ (droppedItem ++ boundedLiteral))) (by omega) rfl
  rw [zero_add] at parsed
  subst atEnd
  have numbered := parsed.numbered
  have perm := insertName_perm ([0x61], parser.nextId) parser.symbolIds
  have dropped := itemSteps_dropped numbered rule start nPrevRules (k + 7) (k + 6) boundedLiteral rfl
  have literal : rItem (k + 7) (k + 6) ⟨boundedLiteral, rule, rule.length, 1,
      ⟨insertName ([0x61], parser.nextId) parser.symbolIds, parser.rules⟩⟩ =
        some (.ok ⟨boundedLiteral.drop 3, rule ++ letterB, rule.length, 1,
          ⟨insertName ([0x61], parser.nextId) parser.symbolIds, parser.rules⟩⟩) := rfl
  refine ⟨_, (groups.trans (dropped.trans (.step literal .refl))).visits (repeatText_begins k), ?_⟩
  refine ⟨?_, numbered.newGroup_dropped, ?_, drop_left, ?_, rfl⟩
  · rw [perm.length_eq, length_cons, numbered.length]
    exact wraps
  · exact perm.mem_iff.mpr (mem_cons_of_mem _ (numbered.groups 1 (le_refl 1) (by omega)))
  · rw [length_append]
    exact ne_of_lt (Nat.lt_succ_self _)

theorem accepts_letterB {rules : Rules} {start : Nat} {cs : List Nat} :
    Accepts (tableGrammar rules start) ClassMatches (symbolsOf letterB) cs ↔ cs = [0x62] := by
  have fits : ∀ c, ClassMatches letterB c ↔ 0x62 = c := by
    simp [ClassMatches, letterB, isCharHead, classItems, ItemMatches]
  refine accepts_terminal_iff.trans ?_
  constructor
  · rintro ⟨c, rest, rfl, isLetter, empty⟩
    rw [← (fits c).mp isLetter, accepts_nil_iff.mp empty]
  · rintro rfl
    exact ⟨0x62, [], rfl, (fits _).mpr rfl, .nil⟩

theorem length_flatten_letters {parts : List (List Nat)} (letters : ∀ part ∈ parts, part = [0x62]) :
    parts.flatten.length = parts.length := by
  rw [eq_replicate_of_mem letters, length_flatten, map_replicate,
    sum_replicate, length_replicate]
  exact mul_one _

theorem IdsUsed.repeats {s : SequenceState} (used : IdsUsed s) : ∃ next,
    handleRepetitions rName 0 3 s = .ok next ∧
      next.rule.drop s.lastSymStart = [⟨.ruleRef, 1⟩] ∧
      next.parser.rules[1]? = some (letterB ++ [⟨.ruleRef, 1⟩] ++ [⟨.alt, 0⟩, ⟨.end, 0⟩]) := by
  obtain ⟨after, optional, here⟩ := optionalRules_wrapped used.all used.isNew used.old letterB
  have count : optionalCount 0 3 = 3 := by decide
  have bounded : decide (3 = noMaxTimes) = false := by decide
  rw [← used.symbol, ← count, ← bounded] at optional
  have sane : s.nPrevRules * totalRules 0 3 < maxRepetitionThreshold := by
    rw [used.counted]
    decide
  obtain ⟨next, returned⟩ := handleRepetitions_returns used.start used.counted.ge sane optional
  have inside : s.lastSymStart ≤ s.rule.length := by
    by_contra outside
    have symbol := used.symbol
    rw [drop_eq_nil_of_le (by omega)] at symbol
    cases symbol
  obtain ⟨last, emitted, -, elements⟩ :=
    (handleRepetitions_repeats rName 0 3 s next returned).drop inside
  rw [optional, Except.ok.injEq] at emitted
  obtain ⟨rfl, rfl⟩ := emitted
  exact ⟨next, returned, elements, here⟩

theorem four_letters {rules : Rules} (start : Nat)
    (here : rules[1]? = some (letterB ++ [⟨.ruleRef, 1⟩] ++ [⟨.alt, 0⟩, ⟨.end, 0⟩])) :
    Accepts (tableGrammar rules start) ClassMatches (symbolsOf [⟨.ruleRef, 1⟩])
      [0x62, 0x62, 0x62, 0x62] := by
  have chain : OptionalRules letterB true rules 1 none 1 := ⟨here, trivial⟩
  have star : elementsLanguage rules start ClassMatches [⟨.ruleRef, 1⟩] =
      (elementsLanguage rules start ClassMatches letterB)∗ := star_language (by decide) chain
  have letters : [0x62, 0x62, 0x62, 0x62] ∈ (elementsLanguage rules start ClassMatches letterB)∗ := by
    refine Language.mem_kstar.mpr ⟨List.replicate 4 [0x62], rfl, fun part member => ?_⟩
    exact accepts_letterB.mpr (eq_of_mem_replicate member)
  rw [← star] at letters
  exact letters

theorem repeatText_not_exact {k : Nat} (wraps : k + 2 = 2 ^ 32) : ∃ s next,
    SequenceVisit none (k + 8) (repeatText k) rName (k + 7) false s ∧
      s.rule.drop s.lastSymStart = letterB ∧ handleRepetitions rName 0 3 s = .ok next ∧
      ∀ rules : Rules, rules[1]? = next.parser.rules[1]? → ∃ cs,
        Accepts (tableGrammar rules 0) ClassMatches (symbolsOf (next.rule.drop s.lastSymStart)) cs ∧
        ¬ ∃ parts : List (List Nat), cs = parts.flatten ∧ WithinBounds 0 3 parts.length ∧
          ∀ part ∈ parts, Accepts (tableGrammar rules 0) ClassMatches (symbolsOf letterB) part := by
  obtain ⟨s, visit, used⟩ := exists_idsUsed wraps
  obtain ⟨next, returned, elements, here⟩ := used.repeats
  refine ⟨s, next, visit, used.symbol, returned, fun rules same =>
    ⟨[0x62, 0x62, 0x62, 0x62], ?_, ?_⟩⟩
  · rw [elements]
    exact four_letters 0 (same.trans here)
  · rintro ⟨parts, whole, within, accepted⟩
    have length := length_flatten_letters fun part member => accepts_letterB.mp (accepted part member)
    rw [← whole] at length
    have most := within.2 (by decide)
    rw [← length] at most
    exact absurd most (by decide)

/-- A repetition of at most three letters that takes four. -/
theorem boundedLiteral_takes_four : ∃ s next,
    SequenceVisit none (4294967294 + 8) (repeatText 4294967294) rName (4294967294 + 7) false s ∧
      s.rule.drop s.lastSymStart = letterB ∧ handleRepetitions rName 0 3 s = .ok next ∧
      ∀ rules : Rules, rules[1]? = next.parser.rules[1]? → ∃ cs,
        Accepts (tableGrammar rules 0) ClassMatches (symbolsOf (next.rule.drop s.lastSymStart)) cs ∧
        ¬ ∃ parts : List (List Nat), cs = parts.flatten ∧ WithinBounds 0 3 parts.length ∧
          ∀ part ∈ parts, Accepts (tableGrammar rules 0) ClassMatches (symbolsOf letterB) part := by
  have wraps : 4294967294 + 2 = 2 ^ 32 := by decide
  exact repeatText_not_exact wraps

end LlamaCpp.Grammar
