import LlamaCpp.Grammar.SequenceVisits
import LlamaCpp.Lib.CfgLanguage

/-!
# The language of a repetition

The rules that `handle_repetitions` synthesises form a chain, or refer to themselves when there
is no upper bound.  While the ids fit into 32 bits each of them is new, and then the repetition
stands for the concatenations of as many words of the symbol as its bounds allow.
-/

set_option autoImplicit false

namespace LlamaCpp.Grammar

open LlamaCpp.Lib List
open Computability

theorem flushTail_append (tail : List Element) (front back : Form) :
    flushTail tail (front ++ back) = flushTail tail front ++ back := by
  unfold flushTail
  split <;> rfl

theorem symbolsOf_append (front : List Element) {back : List Element}
    (begins : classesFrom .end back = true) :
    symbolsOf (front ++ back) = symbolsOf front ++ symbolsOf back := by
  have none_ : (scanSymbols back).1 = [] := by
    cases back with
    | nil => rfl
    | cons e rest =>
      rw [classesFrom, Bool.and_eq_true] at begins
      have notTail : isClassTail e = false := by
        by_contra isTail
        rw [Bool.not_eq_false] at isTail
        exact absurd (isClassType_of_follows isTail begins.1) (by decide)
      rw [scanSymbols, if_neg (by simp [notTail])]
      split <;> rfl
  have scanned : scanSymbols (front ++ back) =
      ((scanSymbols front).1, (scanSymbols front).2 ++ symbolsOf back) := by
    induction front with
    | nil =>
      rw [symbolsOf, none_]
      exact Prod.ext none_ rfl
    | cons e front ih =>
      rw [cons_append, scanSymbols, scanSymbols, ih]
      simp only [flushTail_append]
      split
      · rfl
      · split <;> rfl
  rw [symbolsOf, scanned, flushTail_append]
  rfl

theorem classesFrom_replicate {symbol : List Element} (classes : classesFrom .end symbol = true)
    (n : Nat) (previous : Gretype) :
    classesFrom previous (List.replicate n symbol).flatten = true := by
  induction n generalizing previous with
  | zero => rfl
  | succ n ih =>
    rw [replicate_succ, flatten_cons, classesFrom_append, ih,
      classesFrom_any rfl classes, Bool.and_self]

theorem symbolsOf_replicate {symbol : List Element} (classes : classesFrom .end symbol = true)
    (n : Nat) : symbolsOf (List.replicate n symbol).flatten =
      (List.replicate n (symbolsOf symbol)).flatten := by
  induction n with
  | zero => rfl
  | succ n ih =>
    rw [replicate_succ, flatten_cons,
      symbolsOf_append _ (classesFrom_replicate classes n .end), ih]
    rfl

theorem splitAlternates_optional {body : List Element}
    (inside : ∀ e ∈ body, isEndOfSequence e = false) :
    splitAlternates (body ++ [⟨.alt, 0⟩, ⟨.end, 0⟩]) = [body, []] := by
  induction body with
  | nil => rfl
  | cons e body ih =>
    obtain ⟨first, others, rest, whole⟩ := splitAlternates_cons
      (body ++ [⟨.alt, 0⟩, ⟨.end, 0⟩]) (inside e (mem_cons_self ..))
    rw [ih fun other member => inside other (mem_cons_of_mem _ member)] at rest
    cases rest
    exact whole

variable {id : Nat} {parser : GrammarParser}

theorem rulesOf_optional {rules : Rules} (start : Nat) {body : List Element}
    (inside : ∀ e ∈ body, isEndOfSequence e = false)
    (found : rules[id]? = some (body ++ [⟨.alt, 0⟩, ⟨.end, 0⟩])) :
    RulesOf (tableGrammar rules start) id [symbolsOf body, []] := by
  intro output
  refine mem_tableGrammar.trans ?_
  simp only [found, Option.some.injEq, exists_eq_left', splitAlternates_optional inside]
  constructor
  · rintro ⟨alternate, member, rfl⟩
    exact mem_map_of_mem member
  · intro member
    obtain ⟨alternate, isAlternate, same⟩ := mem_map.mp
      (show output ∈ [body, []].map symbolsOf from member)
    exact ⟨alternate, isAlternate, same.symm⟩

structure NextId (parser next : GrammarParser) : Prop where
  names : NamesOk next.symbolIds
  length : next.symbolIds.length = parser.symbolIds.length + 1
  rules : next.rules = parser.rules

theorem generateSymbolId_next (names : NamesOk parser.symbolIds) {baseName : List Byte}
    (isWord : IsWord baseName) (fits : parser.symbolIds.length < 2 ^ 32) :
    ∃ next, parser.generateSymbolId baseName = (parser.symbolIds.length, next) ∧
      NextId parser next := by
  have next : parser.nextId = parser.symbolIds.length := Nat.mod_eq_of_lt fits
  have isNew : parser.idOf (GrammarParser.generatedName baseName parser.nextId) = none := by
    cases found : parser.idOf (GrammarParser.generatedName baseName parser.nextId) with
    | none => rfl
    | some id =>
      have entry := idOf_eq_some found
      have sameId := names.regenerate isWord entry rfl
      have below := (names.ids (le_of_lt fits)).2 _ entry
      rw [sameId, next] at below
      exact absurd below (lt_irrefl _)
  have perm := insertName_perm
    (GrammarParser.generatedName baseName parser.nextId, parser.nextId) parser.symbolIds
  refine ⟨⟨insertName (GrammarParser.generatedName baseName parser.nextId, parser.nextId)
    parser.symbolIds, parser.rules⟩, ?_, ?_⟩
  · unfold GrammarParser.generateSymbolId
    simp only [isNew]
    rw [next]
  · exact ⟨names.insert isNew (Or.inr ⟨baseName, isWord, rfl⟩),
      by rw [perm.length_eq, length_cons], rfl⟩

theorem addRule_spec (parser : GrammarParser) {ruleId : Nat} (rule : List Element)
    (fits : ruleId + 1 < 2 ^ 32) : ∃ added, parser.addRule ruleId rule = .ok added ∧
      added.symbolIds = parser.symbolIds ∧ added.rules[ruleId]? = some rule ∧
      ∀ j other, j ≠ ruleId → parser.rules[j]? = some other → added.rules[j]? = some other := by
  have resized : ruleId < (GrammarParser.resize parser.rules (ruleId + 1)).length := by
    rw [GrammarParser.resize, length_append, length_take, length_replicate]
    omega
  unfold GrammarParser.addRule
  simp only [Nat.mod_eq_of_lt fits]
  by_cases outside : parser.rules.length ≤ ruleId
  · simp only [if_pos outside, if_pos resized]
    refine ⟨_, rfl, rfl, List.getElem?_set_self resized, fun j other apart found => ?_⟩
    have inside : j < parser.rules.length := (List.getElem?_eq_some_iff.mp found).1
    rw [List.getElem?_set_ne (Ne.symm apart), GrammarParser.resize,
      take_of_length_le (by omega), List.getElem?_append_left inside]
    exact found
  · have inside := Nat.lt_of_not_le outside
    simp only [if_neg outside, if_pos inside]
    refine ⟨_, rfl, rfl, List.getElem?_set_self inside, fun j other apart found => ?_⟩
    rw [List.getElem?_set_ne (Ne.symm apart)]
    exact found

def optionalTail (noMax : Bool) (id : Nat) (last : Option Nat) : List Element :=
  if noMax then [⟨.ruleRef, id⟩] else lastReference last

theorem optionalRules_succ (ruleName : List Byte) (prevRule : List Element) (noMax : Bool) (n : Nat)
    (last : Option Nat) (parser : GrammarParser) :
    optionalRules ruleName prevRule noMax (n + 1) last parser =
      (parser.generateSymbolId ruleName).2.addRule (parser.generateSymbolId ruleName).1
        (prevRule ++ optionalTail noMax (parser.generateSymbolId ruleName).1 last ++
          [⟨.alt, 0⟩, ⟨.end, 0⟩]) >>=
        optionalRules ruleName prevRule noMax n (some (parser.generateSymbolId ruleName).1) := by
  cases last with
  | none => rfl
  | some lastRecRuleId => rfl

theorem optionalRules_step {next : GrammarParser} {ruleName : List Byte}
    (generated : parser.generateSymbolId ruleName = (id, next)) (fits : id + 1 < 2 ^ 32)
    (prevRule : List Element) (noMax : Bool) (n : Nat) (last : Option Nat) : ∃ added,
      optionalRules ruleName prevRule noMax (n + 1) last parser =
        optionalRules ruleName prevRule noMax n (some id) added ∧
      added.symbolIds = next.symbolIds ∧
      added.rules[id]? = some (prevRule ++ optionalTail noMax id last ++ [⟨.alt, 0⟩, ⟨.end, 0⟩]) ∧
      ∀ j other, j ≠ id → next.rules[j]? = some other → added.rules[j]? = some other := by
  obtain ⟨added, ruleAdded, spec⟩ := addRule_spec next
    (prevRule ++ optionalTail noMax id last ++ [⟨.alt, 0⟩, ⟨.end, 0⟩]) fits
  refine ⟨added, ?_, spec⟩
  rw [optionalRules_succ, generated, ruleAdded, ok_bind]

def OptionalRules (prevRule : List Element) (noMax : Bool) (rules : List (List Element)) :
    Nat → Option Nat → Nat → Prop
  | _, _, 0 => True
  | id, last, n + 1 =>
    rules[id]? = some (prevRule ++ optionalTail noMax id last ++ [⟨.alt, 0⟩, ⟨.end, 0⟩]) ∧
      OptionalRules prevRule noMax rules (id + 1) (some id) n

def lastOptional (id : Nat) (last : Option Nat) : Nat → Option Nat
  | 0 => last
  | n + 1 => some (id + n)

theorem lastOptional_succ (id : Nat) (last : Option Nat) (n : Nat) :
    lastOptional id last (n + 1) = lastOptional (id + 1) (some id) n := by
  cases n with
  | zero => rfl
  | succ n => rw [lastOptional, lastOptional, add_assoc, add_comm 1 n]

/-- The loop of `handle_repetitions`; by induction on the rules that are left. -/
theorem optionalRules_spec {ruleName : List Byte} (isWord : IsWord ruleName)
    (prevRule : List Element) (noMax : Bool) (n : Nat) (last : Option Nat)
    (names : NamesOk parser.symbolIds) (fits : parser.symbolIds.length + n < 2 ^ 32) : ∃ after,
      optionalRules ruleName prevRule noMax n last parser =
        .ok (lastOptional parser.symbolIds.length last n, after) ∧
      after.symbolIds.length = parser.symbolIds.length + n ∧
      OptionalRules prevRule noMax after.rules parser.symbolIds.length last n ∧
      ∀ j rule, j < parser.symbolIds.length → parser.rules[j]? = some rule →
        after.rules[j]? = some rule := by
  induction n generalizing last parser with
  | zero => exact ⟨parser, rfl, rfl, trivial, fun _ _ _ found => found⟩
  | succ n ih =>
    obtain ⟨next, generated, nextId⟩ := generateSymbolId_next names isWord (by omega)
    obtain ⟨added, step, sameIds, here, kept⟩ := optionalRules_step generated (by omega) prevRule
      noMax n last
    have length : added.symbolIds.length = parser.symbolIds.length + 1 := by
      rw [sameIds, nextId.length]
    obtain ⟨after, rest, count, chain, keeps⟩ := ih (some parser.symbolIds.length)
      (sameIds ▸ nextId.names) (by omega)
    rw [length] at rest chain keeps
    refine ⟨after, ?_, by omega, ⟨keeps _ _ (Nat.lt_succ_self _) here, chain⟩, ?_⟩
    · rw [step, rest, lastOptional_succ]
    · intro j rule inside found
      exact keeps j rule (by omega) (kept j rule (by omega) (nextId.rules ▸ found))

section

variable {rules : Rules} {start : Nat} {σ : Type} {matches_ : CharClass → σ → Prop}
  {symbol : List Element}

abbrev elementsLanguage (rules : Rules) (start : Nat) (matches_ : CharClass → σ → Prop)
    (elements : List Element) : Language σ :=
  formLanguage (tableGrammar rules start) matches_ (symbolsOf elements)

theorem classesFrom_lastReference (last : Option Nat) :
    classesFrom .end (lastReference last) = true := by
  cases last <;> rfl

theorem inside_optional (inside : ∀ e ∈ symbol, isEndOfSequence e = false) (last : Option Nat) :
    ∀ e ∈ symbol ++ lastReference last, isEndOfSequence e = false := by
  intro e member
  rcases mem_append.mp member with inSymbol | isReference
  · exact inside e inSymbol
  · cases last with
    | none => cases isReference
    | some id =>
      rw [mem_singleton.mp isReference]
      rfl

theorem elementsLanguage_append (front : List Element) {back : List Element}
    (begins : classesFrom .end back = true) :
    elementsLanguage rules start matches_ (front ++ back) =
      elementsLanguage rules start matches_ front * elementsLanguage rules start matches_ back := by
  have form := congrArg (formLanguage (tableGrammar rules start) matches_)
    (symbolsOf_append front begins)
  exact form.trans (formLanguage_append _ _)

/-- A bounded repetition; by induction on the rules of the chain. -/
theorem chain_language (inside : ∀ e ∈ symbol, isEndOfSequence e = false) (n : Nat) {id most : Nat}
    {last : Option Nat} (chain : OptionalRules symbol false rules id last n)
    (before : elementsLanguage rules start matches_ (lastReference last) =
      repeatedTimes (elementsLanguage rules start matches_ symbol) fun k => k ≤ most) :
    elementsLanguage rules start matches_ (lastReference (lastOptional id last n)) =
      repeatedTimes (elementsLanguage rules start matches_ symbol) fun k => k ≤ most + n := by
  induction n generalizing id most last with
  | zero => exact before
  | succ n ih =>
    have ruled := rulesOf_optional start (inside_optional inside last) chain.1
    rw [symbolsOf_append symbol (classesFrom_lastReference last)] at ruled
    rw [lastOptional_succ, show most + (n + 1) = most + 1 + n by omega]
    exact ih chain.2 (formLanguage_chain ruled before)

theorem star_language (inside : ∀ e ∈ symbol, isEndOfSequence e = false) {id : Nat}
    (chain : OptionalRules symbol true rules id none 1) :
    elementsLanguage rules start matches_ (lastReference (some id)) =
      (elementsLanguage rules start matches_ symbol)∗ := by
  have ruled := rulesOf_optional start (inside_optional inside (some id)) chain.1
  rw [symbolsOf_append symbol (classesFrom_lastReference (some id))] at ruled
  exact formLanguage_star ruled

theorem repeatedElements_language (classes : classesFrom .end symbol = true) (minTimes : Nat)
    (last : Option Nat) :
    elementsLanguage rules start matches_ (repeatedElements symbol minTimes last) =
      elementsLanguage rules start matches_ symbol ^ minTimes *
        elementsLanguage rules start matches_ (lastReference last) := by
  have copies : elementsLanguage rules start matches_ (List.replicate minTimes symbol).flatten =
      elementsLanguage rules start matches_ symbol ^ minTimes := by
    have form := congrArg (formLanguage (tableGrammar rules start) matches_)
      (symbolsOf_replicate classes minTimes)
    exact form.trans (formLanguage_replicate _ _)
  rw [repeatedElements, elementsLanguage_append _ (classesFrom_lastReference last), copies]

end

theorem OptionalRules.agree {prevRule : List Element} {noMax : Bool} {rules other : Rules}
    {last : Option Nat} {n : Nat} (chain : OptionalRules prevRule noMax rules id last n)
    (agree : ∀ j, id ≤ j → j < id + n → other[j]? = rules[j]?) :
    OptionalRules prevRule noMax other id last n := by
  induction n generalizing id last with
  | zero => trivial
  | succ n ih =>
    refine ⟨(agree id (le_refl id) (by omega)).trans chain.1, ih chain.2 fun j above below => ?_⟩
    exact agree j (by omega) (by omega)

def WithinBounds (minTimes maxTimes k : Nat) : Prop :=
  minTimes ≤ k ∧ (maxTimes ≠ noMaxTimes → k ≤ maxTimes)

theorem emitted_language {rules : Rules} (start : Nat) {σ : Type}
    (matches_ : CharClass → σ → Prop) {symbol : List Element}
    (inside : ∀ e ∈ symbol, isEndOfSequence e = false) (classes : classesFrom .end symbol = true)
    {minTimes maxTimes : Nat} (ordered : minTimes ≤ maxTimes) (bounded : maxTimes < 2 ^ 64)
    (chain : OptionalRules symbol (decide (maxTimes = noMaxTimes)) rules id none (optionalCount minTimes maxTimes)) :
    elementsLanguage rules start matches_ (repeatedElements symbol minTimes
        (lastOptional id none (optionalCount minTimes maxTimes))) =
      repeatedTimes (elementsLanguage rules start matches_ symbol)
        (WithinBounds minTimes maxTimes) := by
  rw [repeatedElements_language classes, ← repeatedTimes_exactly]
  by_cases noMax : maxTimes = noMaxTimes
  · have count : optionalCount minTimes maxTimes = 1 := if_pos noMax
    rw [decide_eq_true noMax, count] at chain
    rw [count, show lastOptional id none 1 = some id from rfl, star_language inside chain,
      ← repeatedTimes_any, repeatedTimes_mul]
    apply repeatedTimes_congr
    intro k
    constructor
    · rintro ⟨i, j, rfl, -, rfl⟩
      exact ⟨Nat.le_add_right i j, fun hasMax => absurd noMax hasMax⟩
    · exact fun within => ⟨minTimes, k - minTimes, rfl, trivial, by have := within.1; omega⟩
  · have count : optionalCount minTimes maxTimes = maxTimes - minTimes := by
      rw [optionalCount, if_neg noMax, show maxTimes + 2 ^ 64 - minTimes =
        maxTimes - minTimes + 2 ^ 64 by omega, Nat.add_mod_right, Nat.mod_eq_of_lt (by omega)]
    rw [decide_eq_false noMax, count] at chain
    have none_ : elementsLanguage rules start matches_ (lastReference none) =
        repeatedTimes (elementsLanguage rules start matches_ symbol) fun k => k ≤ 0 := by
      rw [repeatedTimes_none]
      exact formLanguage_nil
    rw [count, chain_language inside _ chain none_, repeatedTimes_mul]
    apply repeatedTimes_congr
    intro k
    constructor
    · rintro ⟨i, j, rfl, most, rfl⟩
      exact ⟨Nat.le_add_right i j, fun _ => by omega⟩
    · rintro ⟨least, most⟩
      exact ⟨minTimes, k - minTimes, rfl, by omega, by omega⟩

/-- What `handle_repetitions` does to a rule whose last symbol is repeated: every table with the
emitted rules accepts as many words of the symbol as the bounds allow. -/
structure RepeatedSymbol (minTimes maxTimes : Nat) (s next : SequenceState) : Prop where
  front : next.rule.take s.lastSymStart = s.rule.take s.lastSymStart
  language : ∀ (rules : Rules) (start : Nat) {σ : Type} (matches_ : CharClass → σ → Prop),
    (∀ id, s.parser.symbolIds.length ≤ id → id < next.parser.symbolIds.length →
      rules[id]? = next.parser.rules[id]?) →
    ∀ cs, Accepts (tableGrammar rules start) matches_
        (symbolsOf (next.rule.drop s.lastSymStart)) cs ↔
      ∃ parts : List (List σ), cs = parts.flatten ∧ WithinBounds minTimes maxTimes parts.length ∧
        ∀ part ∈ parts, Accepts (tableGrammar rules start) matches_
          (symbolsOf (s.rule.drop s.lastSymStart)) part

theorem bounded_of_sane {nPrevRules minTimes maxTimes : Nat} (counted : 1 ≤ nPrevRules)
    (sane : nPrevRules * totalRules minTimes maxTimes < maxRepetitionThreshold) :
    maxTimes < 2 ^ 64 := by
  have total : totalRules minTimes maxTimes < maxRepetitionThreshold :=
    lt_of_le_of_lt (Nat.le_mul_of_pos_left _ counted) sane
  unfold totalRules maxRepetitionThreshold at total
  by_cases noMax : maxTimes = noMaxTimes
  · rw [noMax]
    decide
  · by_cases positive : 0 < maxTimes
    · rw [decide_eq_false noMax, decide_eq_true positive, Bool.not_false, Bool.and_self,
        if_pos rfl] at total
      omega
    · omega

/-- In every state of the loop a repetition of the last symbol is exact, when it is not refused
and ids are left for the rules that it synthesises. -/
theorem handleRepetitions_exact {tokenize : Tokenize} {fuel : Nat} {text name : List Byte}
    {depth : Nat} {isNested : Bool} {s : SequenceState}
    (visit : SequenceVisit tokenize fuel text name depth isNested s) (pos : List Byte)
    {minTimes maxTimes : Nat} (ordered : minTimes ≤ maxTimes)
    (symbol : s.lastSymStart ≠ s.rule.length)
    (sane : s.nPrevRules * totalRules minTimes maxTimes < maxRepetitionThreshold)
    (fits : s.parser.symbolIds.length + optionalCount minTimes maxTimes < 2 ^ 32) :
    ∃ next, handleRepetitions name minTimes maxTimes { s with pos } = .ok next ∧
      RepeatedSymbol minTimes maxTimes s next := by
  obtain ⟨isWord, sequence, last⟩ := visit.ok
  have symbolOk := sequence.symbol
  have inside : ∀ e ∈ s.rule.drop s.lastSymStart, isEndOfSequence e = false :=
    fun e member => inside_of_ne (symbolOk.noEnd e member) (last.noAlt e member)
  obtain ⟨after, optional, length, chain, -⟩ := optionalRules_spec isWord
    (s.rule.drop s.lastSymStart) (decide (maxTimes = noMaxTimes))
    (optionalCount minTimes maxTimes) none sequence.keeps.ok.names fits
  have bounded : maxTimes < 2 ^ 64 := bounded_of_sane last.counted.1 sane
  obtain ⟨next, returned⟩ := handleRepetitions_returns (s := { s with pos }) symbol last.counted.1
    sane optional
  refine ⟨next, returned, ?_⟩
  obtain ⟨id, emitted, front, elements⟩ :=
    (handleRepetitions_repeats name minTimes maxTimes { s with pos } next returned).drop
      sequence.inside
  rw [optional, Except.ok.injEq] at emitted
  obtain ⟨rfl, rfl⟩ := emitted
  refine ⟨front, fun rules start σ matches_ agree cs => ?_⟩
  rw [length] at agree
  have words := emitted_language start matches_ inside symbolOk.classes ordered bounded
    (chain.agree agree)
  rw [elements]
  exact Set.ext_iff.mp words cs

/-- The state behind the literal of `r::="b"{0,3}`. -/
def behindLiteral : SequenceState :=
  ⟨utf8Bytes "\x7b0,3\x7d", [⟨.char, 0x62⟩], 0, 1, ⟨[([0x72], 0)], []⟩⟩

theorem behindLiteral_visited :
    SequenceVisit none 5 (utf8Bytes "r::=\"b\"\x7b0,3\x7d") [0x72] 4 false behindLiteral := by
  have more : parseSpace (cStr (utf8Bytes "r::=\"b\"\x7b0,3\x7d")) true ≠ [] := by decide
  have first : RuleVisit none 5 (utf8Bytes "r::=\"b\"\x7b0,3\x7d") _ _ := .start
  have begun := SequenceVisit.rule first more rfl rfl rfl
  exact begun.item rfl

theorem handleRepetitions_exact_behindLiteral :
    ∃ next, handleRepetitions [0x72] 0 3 { behindLiteral with pos := [] } = .ok next ∧
      RepeatedSymbol 0 3 behindLiteral next :=
  handleRepetitions_exact behindLiteral_visited [] (by decide) (by decide) (by decide) (by decide)

end LlamaCpp.Grammar
