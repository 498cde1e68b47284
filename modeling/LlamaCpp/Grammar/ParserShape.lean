import LlamaCpp.Grammar.ParserNames

/-!
# The shape of parsed rules

While a sequence is parsed its rule is a body without end element, and so is what the next
repetition would repeat.  Each item of a sequence keeps this, groups by induction on their
depth, and a text that is accepted has a table of ended rules with references to its rules.
-/

set_option autoImplicit false

namespace LlamaCpp.Grammar

open LlamaCpp.Lib List

/-- A rule under construction: what is in front of the last symbol, and the last symbol with its
repetitions. -/
structure SequenceOk (before : GrammarParser) (s : SequenceState) : Prop where
  keeps : Keeps before s.parser
  parts : ∃ front symbol, s.rule = front ++ symbol ∧ front.length = s.lastSymStart ∧
    BodyOk s.parser.symbolIds front ∧ BodyOk s.parser.symbolIds symbol

section

variable {before : GrammarParser} {s : SequenceState}

theorem SequenceOk.rule (ok : SequenceOk before s) : BodyOk s.parser.symbolIds s.rule := by
  obtain ⟨front, symbol, same, -, frontOk, symbolOk⟩ := ok.parts
  rw [same]
  exact frontOk.append symbolOk

theorem SequenceOk.begin (ok : SequenceOk before s) {after : SequenceState}
    (keeps : Keeps s.parser after.parser) {symbol : List Element}
    (rule : after.rule = s.rule ++ symbol) (start : after.lastSymStart = s.rule.length)
    (symbolOk : BodyOk after.parser.symbolIds symbol) : SequenceOk before after :=
  ⟨ok.keeps.trans keeps, s.rule, symbol, rule, start.symm, ok.rule.grow keeps.grows, symbolOk⟩

theorem optionalRules_keeps {ruleName : List Byte} (isWord : IsWord ruleName)
    {prevRule : List Element} (noMax : Bool) (n : Nat) {last : Option Nat} {parser : GrammarParser}
    (ok : ParserOk parser) (prevOk : BodyOk parser.symbolIds prevRule)
    (named : ∀ id, last = some id → ∃ name, (name, id) ∈ parser.symbolIds) :
    Ensures (optionalRules ruleName prevRule noMax n last parser) fun result =>
      Keeps parser result.2 ∧
        ∀ id, result.1 = some id → ∃ name, (name, id) ∈ result.2.symbolIds := by
  induction n generalizing last parser with
  | zero => exact ensures_ok ⟨⟨ok, List.Subset.refl _⟩, named⟩
  | succ n ih =>
    have generated := generateSymbolId_names ok isWord
    unfold optionalRules
    generalize parser.generateSymbolId ruleName = result at generated
    obtain ⟨recRuleId, next⟩ := result
    have prevNext := prevOk.grow generated.grows
    have refOk : ∀ id name, (name, id) ∈ next.symbolIds →
        RuleOk next.symbolIds (prevRule ++ [⟨.ruleRef, id⟩] ++ [⟨.alt, 0⟩, ⟨.end, 0⟩]) := by
      intro id name entry
      refine ⟨prevRule ++ [⟨.ruleRef, id⟩] ++ [⟨.alt, 0⟩], ?_,
        (prevNext.append (bodyOk_ref entry)).append bodyOk_alt⟩
      simp
    refine (addRule_keeps generated.ok recRuleId ?_).bind fun added keeps => ?_
    · split
      · obtain ⟨name, entry⟩ := generated.entry
        exact refOk recRuleId name entry
      · cases last with
        | some lastRecRuleId =>
          obtain ⟨name, entry⟩ := named lastRecRuleId rfl
          exact refOk lastRecRuleId name (generated.grows entry)
        | none =>
          refine ⟨prevRule ++ [⟨.alt, 0⟩], ?_, prevNext.append bodyOk_alt⟩
          simp
    have here : ∀ id, some recRuleId = some id → ∃ name, (name, id) ∈ added.symbolIds := by
      intro id same
      obtain ⟨name, entry⟩ := generated.entry
      cases same
      exact ⟨name, keeps.grows entry⟩
    refine (ih keeps.ok (prevNext.grow keeps.grows) here).mono fun result later => ?_
    exact ⟨(generated.keeps.trans keeps).trans later.1, later.2⟩

theorem handleRepetitions_ok {ruleName : List Byte} (isWord : IsWord ruleName)
    (minTimes maxTimes : Nat) (ok : SequenceOk before s) :
    Ensures (handleRepetitions ruleName minTimes maxTimes s) (SequenceOk before) := by
  obtain ⟨front, symbol, same, start, frontOk, symbolOk⟩ := ok.parts
  have prev : s.rule.drop s.lastSymStart = symbol := by rw [same, ← start, drop_left]
  have kept_ : ∃ repeated, (if minTimes = 0 then s.rule.take s.lastSymStart
      else s.rule ++ (List.replicate (minTimes - 1) symbol).flatten) = front ++ repeated ∧
        BodyOk s.parser.symbolIds repeated := by
    split
    · refine ⟨[], ?_, bodyOk_nil⟩
      rw [same, ← start, take_left, append_nil]
    · refine ⟨symbol ++ (List.replicate (minTimes - 1) symbol).flatten, ?_,
        symbolOk.append (symbolOk.replicate _)⟩
      rw [same, append_assoc]
  obtain ⟨repeated, kept, repeatedOk⟩ := kept_
  unfold handleRepetitions
  simp only [prev, kept]
  refine ensures_ite (fun _ => ensures_error) fun _ => ?_
  refine ensures_ite (fun _ => ensures_error) fun _ => ?_
  refine (optionalRules_keeps isWord _ _ ok.keeps.ok symbolOk (by simp)).bind
    fun result optional => ?_
  obtain ⟨last, parser⟩ := result
  obtain ⟨keeps, named⟩ := optional
  refine ensures_ite (fun _ => ensures_error) fun _ => ?_
  apply ensures_ok
  refine ⟨ok.keeps.trans keeps, front, ?_⟩
  cases last with
  | none =>
    exact ⟨repeated, rfl, start, frontOk.grow keeps.grows, repeatedOk.grow keeps.grows⟩
  | some lastRecRuleId =>
    obtain ⟨name, entry⟩ := named lastRecRuleId rfl
    refine ⟨repeated ++ [⟨.ruleRef, lastRecRuleId⟩], ?_, start, frontOk.grow keeps.grows,
      (repeatedOk.grow keeps.grows).append (bodyOk_ref entry)⟩
    simp

end

theorem literalChars_ok (fuel : Nat) (pos : List Byte) (rule : List Element) :
    Ensures (literalChars fuel pos rule) fun result =>
      ∃ chars, result.2 = rule ++ chars ∧ ∀ e ∈ chars, e.type = .char := by
  induction fuel generalizing pos rule with
  | zero => exact ensures_error
  | succ fuel ih =>
    refine ensures_ite (fun _ => ?_) fun _ => ensures_ite (fun _ => ensures_error) fun _ => ?_
    · exact ensures_ok ⟨[], (append_nil rule).symm, fun _ impossible =>
        absurd impossible not_mem_nil⟩
    · intro result returned
      obtain ⟨⟨chr, next⟩, -, rest⟩ := bind_eq_ok.mp returned
      obtain ⟨chars, same, isChar⟩ := ih next (rule ++ [⟨.char, chr⟩]) result rest
      refine ⟨⟨.char, chr⟩ :: chars, by rw [same, append_assoc]; rfl, fun e member => ?_⟩
      rcases mem_cons.mp member with here | later
      · rw [here]
      · exact isChar e later

theorem bodyOk_chars {symbolIds : List (List Byte × Nat)} {chars : List Element}
    (isChar : ∀ e ∈ chars, e.type = .char) : BodyOk symbolIds chars := by
  induction chars with
  | nil => exact bodyOk_nil
  | cons e chars ih =>
    have first : BodyOk symbolIds [e] := by
      have here := isChar e (mem_cons_self ..)
      exact bodyOk_single (by simp [here]) (by simp [isClassTail, here]) (by simp [here])
    exact first.append (ih fun other member => isChar other (mem_cons_of_mem _ member))

structure ClassSoFar (elements : List Element) : Prop where
  classes : classesFrom .end elements = true
  types : ∀ e ∈ elements, isClassType e.type = true

variable {elements : List Element}

theorem lastType_class (ok : ClassSoFar elements) (some_ : elements ≠ []) (previous : Gretype) :
    isClassType (lastType previous elements) = true := by
  have types := ok.types
  clear ok
  induction elements generalizing previous with
  | nil => exact absurd rfl some_
  | cons e rest ih =>
    rw [lastType]
    cases rest with
    | nil => exact types e (mem_cons_self ..)
    | cons next rest =>
      exact ih (cons_ne_nil _ _) _
        fun other member => types other (mem_cons_of_mem _ member)

theorem ClassSoFar.push (ok : ClassSoFar elements) {e : Element}
    (isClass : isClassType e.type = true)
    (mayFollow : follows (lastType .end elements) e.type = true) :
    ClassSoFar (elements ++ [e]) := by
  refine ⟨?_, fun other member => ?_⟩
  · rw [classesFrom_append, ok.classes, classesFrom, mayFollow]
    rfl
  · rcases mem_append.mp member with before | here
    · exact ok.types other before
    · rw [mem_singleton.mp here]
      exact isClass

theorem lastType_append (previous : Gretype) (front : List Element) (e : Element) :
    lastType previous (front ++ [e]) = e.type := by
  induction front generalizing previous with
  | nil => rfl
  | cons other front ih => exact ih other.type

theorem rangeUpper_ok (front : List Element) {e : Element} (ok : ClassSoFar (elements ++ [e]))
    (begins : follows e.type .charRngUpper = true) (pos : List Byte) :
    Ensures (rangeUpper pos (front ++ (elements ++ [e]))) fun result =>
      ∃ more, result.2 = front ++ more ∧ ClassSoFar more ∧ more ≠ [] := by
  refine ensures_ite (fun _ => ?_) fun _ => ?_
  · refine ensures_ite (fun _ => ensures_error) fun _ => ?_
    intro result returned
    obtain ⟨⟨endChr, next⟩, -, same⟩ := bind_eq_ok.mp returned
    cases same
    refine ⟨elements ++ [e] ++ [⟨.charRngUpper, endChr⟩], append_assoc .., ok.push rfl ?_,
      by simp⟩
    rw [lastType_append]
    exact begins
  · exact ensures_ok ⟨_, rfl, ok, by simp⟩

theorem classChars_ok {startType : Gretype} (begins : startType = .char ∨ startType = .charNot)
    (front : List Element) (fuel : Nat) (pos : List Byte) (ok : ClassSoFar elements) :
    Ensures (classChars startType front.length fuel pos (front ++ elements)) fun result =>
      ∃ more, result.2 = front ++ more ∧ ClassSoFar more := by
  induction fuel generalizing pos elements with
  | zero => exact ensures_error
  | succ fuel ih =>
    refine ensures_ite (fun _ => ensures_ok ⟨elements, rfl, ok⟩) fun _ =>
      ensures_ite (fun _ => ensures_error) fun _ => ?_
    intro result returned
    obtain ⟨⟨chr, next⟩, -, rest⟩ := bind_eq_ok.mp returned
    obtain ⟨⟨after, rule⟩, ranged, rest⟩ := bind_eq_ok.mp rest
    rw [append_assoc] at ranged
    -- the first character begins the class, a later one is an alternative
    have pushed : ClassSoFar (elements ++
          [⟨if front.length < (front ++ elements).length then .charAlt else startType, chr⟩]) ∧
        follows (if front.length < (front ++ elements).length then .charAlt else startType)
          .charRngUpper = true := by
      cases elements with
      | nil =>
        rw [append_nil, if_neg (lt_irrefl _)]
        rcases begins with isChar | isNot
        · rw [isChar]
          exact ⟨ok.push rfl rfl, rfl⟩
        · rw [isNot]
          exact ⟨ok.push rfl rfl, rfl⟩
      | cons e elements =>
        have longer : front.length < (front ++ e :: elements).length := by
          rw [length_append, length_cons]
          omega
        rw [if_pos longer]
        exact ⟨ok.push rfl (follows_charAlt (lastType_class ok (cons_ne_nil _ _) .end)), rfl⟩
    obtain ⟨more, same, moreOk, -⟩ := rangeUpper_ok front pushed.1 pushed.2 next _ ranged
    simp only at same
    rw [same] at rest
    exact ih after moreOk result rest

theorem ClassSoFar.bodyOk {symbolIds : List (List Byte × Nat)} (ok : ClassSoFar elements) :
    BodyOk symbolIds elements := by
  refine ⟨fun e member isEnd => ?_, ok.classes, fun e member isRef => ?_⟩
  · have isClass := ok.types e member
    rw [isEnd] at isClass
    cases isClass
  · have isClass := ok.types e member
    rw [isRef] at isClass
    cases isClass

section

variable {before : GrammarParser} {s : SequenceState}

theorem literalItem_ok (fuel : Nat) (isNested : Bool) (ok : SequenceOk before s) :
    Ensures (literalItem fuel isNested s) (SequenceOk before) := by
  refine (literalChars_ok fuel s.pos.tail s.rule).bind fun result literal => ?_
  obtain ⟨chars, same, isChar⟩ := literal
  exact ensures_ok (ok.begin ⟨ok.keeps.ok, List.Subset.refl _⟩ same rfl (bodyOk_chars isChar))

theorem classItem_ok (fuel : Nat) (isNested : Bool) (ok : SequenceOk before s) :
    Ensures (classItem fuel isNested s) (SequenceOk before) := by
  have begins : (if decide (byteAt s.pos.tail = Ascii.caret) = true then Gretype.charNot
        else Gretype.char) = .char ∨
      (if decide (byteAt s.pos.tail = Ascii.caret) = true then Gretype.charNot
        else Gretype.char) = .charNot := by
    split
    · exact Or.inr rfl
    · exact Or.inl rfl
  have empty : ClassSoFar [] := ⟨rfl, fun _ impossible => absurd impossible not_mem_nil⟩
  have class_ := fun start => classChars_ok begins s.rule fuel start empty
  rw [append_nil] at class_
  refine (class_ _).bind fun result parsed => ?_
  obtain ⟨elements, same, classOk⟩ := parsed
  exact ensures_ok (ok.begin ⟨ok.keeps.ok, List.Subset.refl _⟩ same rfl classOk.bodyOk)

theorem symbol_ok (ok : SequenceOk before s) {parser : GrammarParser} (keeps : Keeps s.parser parser)
    {elements : List Element} (elementsOk : BodyOk parser.symbolIds elements) (pos : List Byte) :
    SequenceOk before (s.symbol elements pos parser) :=
  ok.begin keeps rfl rfl elementsOk

theorem tokenItem_ok (tokenize : Tokenize) (isNested : Bool) (ok : SequenceOk before s) :
    Ensures (tokenItem tokenize isNested s) (SequenceOk before) := by
  have tokenOk : ∀ token, BodyOk s.parser.symbolIds
      [⟨if decide (byteAt s.pos = Ascii.exclamation) = true then .tokenNot else .token, token⟩] := by
    intro token
    split
    · exact bodyOk_single (by simp) rfl (by simp)
    · exact bodyOk_single (by simp) rfl (by simp)
  intro result returned
  obtain ⟨⟨token, tokenEnd⟩, -, same⟩ := bind_eq_ok.mp returned
  cases same
  exact symbol_ok ok ⟨ok.keeps.ok, List.Subset.refl _⟩ (tokenOk token) _

theorem parseName_ok (src : List Byte) : Ensures (parseName src) fun result => IsWord result.1 := by
  refine ensures_ite (fun _ => ensures_error) fun _ => ensures_ok fun c member => ?_
  exact mem_takeWhile_imp member

theorem referenceItem_ok (isNested : Bool) (ok : SequenceOk before s) :
    Ensures (referenceItem isNested s) (SequenceOk before) := by
  refine (parseName_ok s.pos).bind fun result isWord => ?_
  have names := getSymbolId_names ok.keeps.ok isWord
  obtain ⟨written, entry⟩ := names.entry
  exact ensures_ok (symbol_ok ok names.keeps (bodyOk_ref entry) _)

def GroupOk (parseGroup : ParseGroup) : Prop :=
  ∀ pos ruleId parser, ParserOk parser →
    Ensures (parseGroup pos ruleId parser) fun result => Keeps parser result.2

variable {ruleName : List Byte}

theorem groupItem_ok {parseGroup : ParseGroup} (groupOk : GroupOk parseGroup)
    (isWord : IsWord ruleName) (isNested : Bool) (ok : SequenceOk before s) :
    Ensures (groupItem parseGroup ruleName isNested s) (SequenceOk before) := by
  have generated := generateSymbolId_names ok.keeps.ok isWord
  unfold groupItem
  generalize s.parser.generateSymbolId ruleName = result at generated
  obtain ⟨subRuleId, parser⟩ := result
  obtain ⟨name, entry⟩ := generated.entry
  refine (groupOk _ subRuleId parser generated.ok).bind fun inner keeps => ?_
  intro final returned
  obtain ⟨closed, -, same⟩ := bind_eq_ok.mp returned
  cases same
  exact ok.begin (generated.keeps.trans keeps) rfl rfl (bodyOk_ref (keeps.grows entry))

theorem SequenceOk.move (ok : SequenceOk before s) (pos : List Byte) :
    SequenceOk before { s with pos } := ⟨ok.keeps, ok.parts⟩

theorem boundsItem_ok (isWord : IsWord ruleName) (isNested : Bool) (ok : SequenceOk before s) :
    Ensures (boundsItem ruleName isNested s) (SequenceOk before) := by
  intro result returned
  obtain ⟨⟨minTimes, maxTimes, pos⟩, -, rest⟩ := bind_eq_ok.mp returned
  obtain ⟨_, -, rest⟩ := bind_eq_ok.mp rest
  exact handleRepetitions_ok isWord minTimes maxTimes (ok.move pos) result rest

/-- One branch of the loop of `parse_sequence`. -/
theorem item_ite {c : Prop} [Decidable c] {yes : Parsed SequenceState}
    {rest : Option (Parsed SequenceState)} {Post : SequenceState → Prop} (whenTrue : Ensures yes Post)
    (whenFalse : ∀ next, rest = some next → Ensures next Post) (next : Parsed SequenceState)
    (item : (if c then some yes else rest) = some next) : Ensures next Post := by
  by_cases here : c
  · rw [if_pos here, Option.some.injEq] at item
    rw [← item]
    exact whenTrue
  · rw [if_neg here] at item
    exact whenFalse next item

theorem sequenceItem_ok (tokenize : Tokenize) (fuel : Nat) {parseGroup : ParseGroup}
    (groupOk : GroupOk parseGroup) (isWord : IsWord ruleName) (isNested : Bool)
    (ok : SequenceOk before s) {next : Parsed SequenceState}
    (item : sequenceItem tokenize fuel parseGroup ruleName isNested s = some next) :
    Ensures next (SequenceOk before) := by
  have repeats : ∀ minTimes maxTimes,
      Ensures (repeatItem ruleName isNested minTimes maxTimes s) (SequenceOk before) :=
    fun minTimes maxTimes => handleRepetitions_ok isWord minTimes maxTimes (ok.move _)
  have anyOk : BodyOk s.parser.symbolIds [⟨.charAny, 0⟩] := bodyOk_single (by simp) rfl (by simp)
  revert next
  apply item_ite (literalItem_ok fuel isNested ok)
  apply item_ite (classItem_ok fuel isNested ok)
  apply item_ite (tokenItem_ok tokenize isNested ok)
  apply item_ite (referenceItem_ok isNested ok)
  apply item_ite (groupItem_ok groupOk isWord isNested ok)
  apply item_ite (ensures_ok (symbol_ok ok ⟨ok.keeps.ok, List.Subset.refl _⟩ anyOk _))
  apply item_ite (repeats 0 noMaxTimes)
  apply item_ite (repeats 1 noMaxTimes)
  apply item_ite (repeats 0 1)
  apply item_ite (boundsItem_ok isWord isNested ok)
  exact fun _ impossible => by cases impossible

end

def ItemOk (item : SequenceState → Option (Parsed SequenceState)) : Prop :=
  ∀ before s next, SequenceOk before s → item s = some next → Ensures next (SequenceOk before)

section

variable {item : SequenceState → Option (Parsed SequenceState)} (itemOk : ItemOk item)

include itemOk

theorem sequenceLoop_ok (fuel : Nat) {before : GrammarParser} {s : SequenceState}
    (ok : SequenceOk before s) : Ensures (sequenceLoop item fuel s) (SequenceOk before) := by
  induction fuel generalizing s with
  | zero => exact ensures_error
  | succ fuel ih =>
    rw [sequenceLoop]
    split
    · rename_i next found
      exact (itemOk before s next ok found).bind fun _ nextOk => ih nextOk
    · exact ensures_ok ok

theorem parseSequence_ok (fuel : Nat) (pos : List Byte) {rule : List Element}
    {before parser : GrammarParser} (keeps : Keeps before parser)
    (ruleOk : BodyOk parser.symbolIds rule) :
    Ensures (parseSequence item fuel pos rule parser) (SequenceOk before) := by
  apply sequenceLoop_ok itemOk
  exact ⟨keeps, rule, [], (append_nil rule).symm, rfl, ruleOk, bodyOk_nil⟩

theorem alternatesLoop_ok (fuel n : Nat) {before : GrammarParser} {s : SequenceState}
    (ok : SequenceOk before s) : Ensures (alternatesLoop item fuel n s) (SequenceOk before) := by
  induction n generalizing s with
  | zero => exact ensures_error
  | succ n ih =>
    refine ensures_ite (fun _ => ?_) fun _ => ensures_ok ok
    refine (parseSequence_ok itemOk fuel _ ok.keeps (ok.rule.append bodyOk_alt)).bind ?_
    exact fun _ nextOk => ih nextOk

end

theorem parseAlternates_ok (tokenize : Tokenize) (fuel : Nat) {ruleName : List Byte}
    (isWord : IsWord ruleName) (depth : Nat) (isNested : Bool) :
    GroupOk (parseAlternates tokenize fuel ruleName depth isNested) := by
  induction depth generalizing isNested with
  | zero => exact fun _ _ _ _ => ensures_error
  | succ depth ih =>
    intro pos ruleId parser ok
    have itemOk : ItemOk (sequenceItem tokenize fuel
        (parseAlternates tokenize fuel ruleName depth true) ruleName isNested) :=
      fun before s next sOk found =>
        sequenceItem_ok tokenize fuel (ih true) isWord isNested sOk found
    have same : Keeps parser parser := ⟨ok, List.Subset.refl _⟩
    refine (parseSequence_ok itemOk fuel pos same bodyOk_nil).bind fun first firstOk => ?_
    refine (alternatesLoop_ok itemOk fuel fuel firstOk).bind fun last lastOk => ?_
    have ruleOk : RuleOk last.parser.symbolIds (last.rule ++ [⟨.end, 0⟩]) := ⟨_, rfl, lastOk.rule⟩
    refine (addRule_keeps lastOk.keeps.ok ruleId ruleOk).bind fun added keeps => ?_
    exact ensures_ok (lastOk.keeps.trans keeps)

theorem parseRule_ok (tokenize : Tokenize) (fuel : Nat) (src : List Byte) {parser : GrammarParser}
    (ok : ParserOk parser) :
    Ensures (parseRule tokenize fuel src parser) fun result => ParserOk result.2 := by
  refine (parseName_ok src).bind fun result isWord => ?_
  have names := getSymbolId_names ok isWord
  refine ensures_ite (fun _ => ?_) fun _ => ensures_error
  refine (parseAlternates_ok tokenize fuel isWord fuel false _ _ _ names.ok).bind
    fun result keeps => ?_
  refine ensures_ite (fun _ => ensures_ok keeps.ok) fun _ => ?_
  refine ensures_ite (fun _ => ensures_ok keeps.ok) fun _ => ?_
  exact ensures_ite (fun _ => ensures_ok keeps.ok) fun _ => ensures_error

theorem parseRules_ok (tokenize : Tokenize) (fuel n : Nat) (pos : List Byte) {parser : GrammarParser}
    (ok : ParserOk parser) : Ensures (parseRules tokenize fuel n pos parser) ParserOk := by
  induction n generalizing pos parser with
  | zero => exact ensures_error
  | succ n ih =>
    refine ensures_ite (fun _ => ensures_ok ok) fun _ => ?_
    exact (parseRule_ok tokenize fuel pos ok).bind fun result resultOk => ih result.1 resultOk

theorem checkElement_passed (parser : GrammarParser) (elem : Element) :
    Ensures (checkElement parser elem) fun _ => elem.type = .ruleRef →
      ∀ name, (name, elem.value) ∈ parser.symbolIds → elem.value < parser.rules.length := by
  refine ensures_ite (fun missing => ?_) fun present => ?_
  · split
    · exact ensures_error
    · rename_i none_
      refine ensures_ok fun _ name entry => ?_
      rw [List.find?_eq_none] at none_
      have differs := none_ _ entry
      rw [decide_eq_true_eq] at differs
      exact absurd rfl differs
  · refine ensures_ok fun isRef name _ => ?_
    by_contra outside
    apply present
    refine ⟨isRef, ?_⟩
    rw [getD_eq_getElem?_getD, List.getElem?_eq_none (Nat.le_of_not_lt outside), Option.getD_none]

theorem checkRule_passed (parser : GrammarParser) (rule : List Element) :
    Ensures (checkRule parser rule) fun _ => rule ≠ [] ∧ ∀ elem ∈ rule, elem.type = .ruleRef →
      ∀ name, (name, elem.value) ∈ parser.symbolIds → elem.value < parser.rules.length := by
  refine ensures_ite (fun _ => ensures_error) fun nonempty => ?_
  exact (ensures_forM (checkElement_passed parser) rule).mono fun _ passed => ⟨nonempty, passed⟩

structure TableOk (parser : GrammarParser) : Prop where
  names : NamesOk parser.symbolIds
  rules : ∀ rule ∈ parser.rules, RuleOk parser.symbolIds rule
  refs : ∀ rule ∈ parser.rules, ∀ e ∈ rule, e.type = .ruleRef → e.value < parser.rules.length

theorem parse_tableOk (tokenize : Tokenize) (fuel : Nat) (src : List Byte) :
    Ensures (parse tokenize fuel src) TableOk := by
  have empty : ParserOk ⟨[], []⟩ := ⟨namesOk_nil, fun _ impossible =>
    absurd impossible not_mem_nil⟩
  refine (parseRules_ok tokenize fuel fuel _ empty).bind fun parser ok => ?_
  refine (ensures_forM (checkRule_passed parser) parser.rules).bind fun _ passed => ?_
  have rules : ∀ rule ∈ parser.rules, RuleOk parser.symbolIds rule := fun rule member =>
    (ok.rules rule member).resolve_left (passed rule member).1
  refine ensures_ok ⟨ok.names, rules, fun rule member e inRule isRef => ?_⟩
  obtain ⟨body, same, bodyOk⟩ := rules rule member
  have inBody : e ∈ body := by
    rw [same] at inRule
    rcases mem_append.mp inRule with before | last
    · exact before
    · rw [mem_singleton.mp last] at isRef
      cases isRef
  obtain ⟨name, entry⟩ := bodyOk.named e inBody isRef
  exact (passed rule member).2 e inRule isRef name entry

end LlamaCpp.Grammar
