import LlamaCpp.Grammar.ParserShape

/-!
# The states of the sequence loop

While a text is parsed, the loop of `parse_sequence` runs for every alternate of every rule and
of every group.  In each state that it goes through, the last symbol of the rule has no
alternates, and the count of the rules that it stands for is positive and has 32 bits.
-/

set_option autoImplicit false

namespace LlamaCpp.Grammar

open LlamaCpp.Lib List

inductive RuleVisit (tokenize : Tokenize) (fuel : Nat) (text : List Byte) :
    List Byte → GrammarParser → Prop
  | start : RuleVisit tokenize fuel text (parseSpace (cStr text) true) ⟨[], []⟩
  | next {pos after : List Byte} {parser later : GrammarParser}
      (visit : RuleVisit tokenize fuel text pos parser) (more : pos ≠ [])
      (parsed : parseRule tokenize fuel pos parser = .ok (after, later)) :
      RuleVisit tokenize fuel text after later

/-- The body of the loop of `parse_sequence`, inside of groups that leave the depth. -/
abbrev loopItem (tokenize : Tokenize) (fuel : Nat) (ruleName : List Byte) (depth : Nat)
    (isNested : Bool) : SequenceState → Option (Parsed SequenceState) :=
  sequenceItem tokenize fuel (parseAlternates tokenize fuel ruleName depth true) ruleName isNested

/-- The states of the loop of `parse_sequence`, with the name of the rule that is parsed. -/
inductive SequenceVisit (tokenize : Tokenize) (fuel : Nat) (text : List Byte) :
    List Byte → Nat → Bool → SequenceState → Prop
  | rule {pos name nameEnd : List Byte} {parser : GrammarParser} {depth : Nat}
      (visit : RuleVisit tokenize fuel text pos parser) (more : pos ≠ [])
      (named : parseName pos = .ok (name, nameEnd))
      (defines : (parseSpace nameEnd false).take 3 = [Ascii.colon, Ascii.colon, Ascii.equals])
      (enough : fuel = depth + 1) :
      SequenceVisit tokenize fuel text name depth false
        ⟨parseSpace ((parseSpace nameEnd false).drop 3) true, [], 0, 1, (parser.getSymbolId name).2⟩
  | group {name : List Byte} {depth : Nat} {isNested : Bool} {s : SequenceState}
      (visit : SequenceVisit tokenize fuel text name (depth + 1) isNested s)
      (opens : byteAt s.pos = Ascii.openParen) :
      SequenceVisit tokenize fuel text name depth true
        ⟨parseSpace s.pos.tail true, [], 0, 1, (s.parser.generateSymbolId name).2⟩
  | alternate {name : List Byte} {depth : Nat} {isNested : Bool} {s : SequenceState}
      (visit : SequenceVisit tokenize fuel text name depth isNested s)
      (ended : loopItem tokenize fuel name depth isNested s = none)
      (pipe : byteAt s.pos = Ascii.pipe) :
      SequenceVisit tokenize fuel text name depth isNested
        ⟨parseSpace s.pos.tail true, s.rule ++ [⟨.alt, 0⟩], s.rule.length + 1, 1, s.parser⟩
  | item {name : List Byte} {depth : Nat} {isNested : Bool} {s next : SequenceState}
      (visit : SequenceVisit tokenize fuel text name depth isNested s)
      (found : loopItem tokenize fuel name depth isNested s = some (.ok next)) :
      SequenceVisit tokenize fuel text name depth isNested next

theorem RuleVisit.ok {tokenize : Tokenize} {fuel : Nat} {text pos : List Byte}
    {parser : GrammarParser} (visit : RuleVisit tokenize fuel text pos parser) :
    ParserOk parser := by
  induction visit with
  | start => exact ⟨namesOk_nil, fun _ impossible => absurd impossible not_mem_nil⟩
  | next _ _ parsed ih => exact parseRule_ok _ _ _ ih _ parsed

/-- The last symbol with its repetitions is one alternate, and the count of the rules that it
stands for has 32 bits. -/
structure LastSymbol (s : SequenceState) : Prop where
  noAlt : ∀ e ∈ s.rule.drop s.lastSymStart, e.type ≠ .alt
  counted : 1 ≤ s.nPrevRules ∧ s.nPrevRules < 2 ^ 32

variable {s : SequenceState} {before : GrammarParser}

theorem lastSymbol_begin {after : SequenceState} {symbol : List Element}
    (rule : after.rule = s.rule ++ symbol) (start : after.lastSymStart = s.rule.length)
    (noAlt : ∀ e ∈ symbol, e.type ≠ .alt)
    (counted : 1 ≤ after.nPrevRules ∧ after.nPrevRules < 2 ^ 32) : LastSymbol after := by
  refine ⟨?_, counted⟩
  rw [rule, start, drop_left]
  exact noAlt

theorem lastSymbol_single {after : SequenceState} {e : Element}
    (rule : after.rule = s.rule ++ [e]) (start : after.lastSymStart = s.rule.length)
    (notAlt : e.type ≠ .alt) (counted : 1 ≤ after.nPrevRules ∧ after.nPrevRules < 2 ^ 32) :
    LastSymbol after := by
  refine lastSymbol_begin rule start (fun other member => ?_) counted
  rw [mem_singleton.mp member]
  exact notAlt

theorem literalItem_lastSymbol (fuel : Nat) (isNested : Bool) (s : SequenceState) :
    Ensures (literalItem fuel isNested s) LastSymbol := by
  refine (literalChars_ok fuel s.pos.tail s.rule).bind fun result literal => ?_
  obtain ⟨chars, same, isChar⟩ := literal
  refine ensures_ok (lastSymbol_begin same rfl (fun e member => ?_) (by simp))
  rw [isChar e member]
  simp

theorem classItem_lastSymbol (fuel : Nat) (isNested : Bool) (s : SequenceState) :
    Ensures (classItem fuel isNested s) LastSymbol := by
  have begins : ∀ negated : Bool, (if negated = true then Gretype.charNot else Gretype.char) =
      .char ∨ (if negated = true then Gretype.charNot else Gretype.char) = .charNot := by decide
  have empty : ClassSoFar [] := ⟨rfl, fun _ impossible => absurd impossible not_mem_nil⟩
  have class_ := fun negated start => classChars_ok (begins negated) s.rule fuel start empty
  rw [append_nil] at class_
  refine (class_ _ _).bind fun result parsed => ?_
  obtain ⟨elements, same, classOk⟩ := parsed
  refine ensures_ok (lastSymbol_begin same rfl (fun e member isAlt => ?_) (by simp))
  have isClass := classOk.types e member
  rw [isAlt] at isClass
  cases isClass

theorem tokenItem_lastSymbol (tokenize : Tokenize) (isNested : Bool) (s : SequenceState) :
    Ensures (tokenItem tokenize isNested s) LastSymbol := by
  intro result returned
  obtain ⟨⟨token, tokenEnd⟩, -, same⟩ := bind_eq_ok.mp returned
  cases same
  refine lastSymbol_single rfl rfl ?_ (by simp [SequenceState.symbol])
  split <;> simp

theorem referenceItem_lastSymbol (isNested : Bool) (s : SequenceState) :
    Ensures (referenceItem isNested s) LastSymbol := by
  intro result returned
  obtain ⟨⟨name, nameEnd⟩, -, same⟩ := bind_eq_ok.mp returned
  cases same
  exact lastSymbol_single rfl rfl (by simp) (by simp [SequenceState.symbol])

theorem groupItem_lastSymbol (parseGroup : ParseGroup) (ruleName : List Byte) (isNested : Bool)
    (s : SequenceState) : Ensures (groupItem parseGroup ruleName isNested s) LastSymbol := by
  intro result returned
  obtain ⟨⟨pos, parser⟩, -, rest⟩ := bind_eq_ok.mp returned
  obtain ⟨closed, -, same⟩ := bind_eq_ok.mp rest
  cases same
  refine lastSymbol_single rfl rfl (by simp) ⟨Nat.le_max_left .., ?_⟩
  exact Nat.max_lt.mpr ⟨by decide, Nat.mod_lt _ (by decide)⟩

/-- The rules that a repetition stands for; `total_rules` of `handle_repetitions`. -/
def totalRules (minTimes maxTimes : Nat) : Nat :=
  if !decide (maxTimes = noMaxTimes) && decide (0 < maxTimes) then maxTimes
  else if 0 < minTimes then minTimes else 1

theorem totalRules_pos (minTimes maxTimes : Nat) : 1 ≤ totalRules minTimes maxTimes := by
  unfold totalRules
  split
  · rename_i bounded
    rw [Bool.and_eq_true, decide_eq_true_eq] at bounded
    exact bounded.2
  · split
    · assumption
    · exact le_refl 1

/-- `n_opt` of `handle_repetitions`. -/
def optionalCount (minTimes maxTimes : Nat) : Nat :=
  if maxTimes = noMaxTimes then 1 else (maxTimes + 2 ^ 64 - minTimes) % 2 ^ 64

def lastReference (last : Option Nat) : List Element := (last.map (Element.mk .ruleRef)).toList

def repeatedElements (symbol : List Element) (minTimes : Nat) (last : Option Nat) : List Element :=
  (List.replicate minTimes symbol).flatten ++ lastReference last

structure Repeats (ruleName : List Byte) (minTimes maxTimes : Nat) (s next : SequenceState) :
    Prop where
  emitted : ∃ last, optionalRules ruleName (s.rule.drop s.lastSymStart)
      (decide (maxTimes = noMaxTimes)) (optionalCount minTimes maxTimes) none s.parser =
        .ok (last, next.parser) ∧
    next.rule = s.rule.take s.lastSymStart ++
      repeatedElements (s.rule.drop s.lastSymStart) minTimes last
  start : next.lastSymStart = s.lastSymStart
  counted : 1 ≤ next.nPrevRules ∧ next.nPrevRules < maxRepetitionThreshold

theorem repeats_rule (rule : List Element) (start minTimes : Nat) (last : Option Nat) :
    (match last with
      | some id => (if minTimes = 0 then rule.take start
          else rule ++ (List.replicate (minTimes - 1) (rule.drop start)).flatten) ++
            [⟨.ruleRef, id⟩]
      | none => if minTimes = 0 then rule.take start
          else rule ++ (List.replicate (minTimes - 1) (rule.drop start)).flatten) =
      rule.take start ++ repeatedElements (rule.drop start) minTimes last := by
  have kept : (if minTimes = 0 then rule.take start
      else rule ++ (List.replicate (minTimes - 1) (rule.drop start)).flatten) =
        rule.take start ++ (List.replicate minTimes (rule.drop start)).flatten := by
    cases minTimes with
    | zero => simp
    | succ n =>
      rw [if_neg (Nat.succ_ne_zero n), Nat.add_sub_cancel, replicate_succ,
        flatten_cons, ← append_assoc, take_append_drop]
  rw [kept, repeatedElements, ← append_assoc]
  cases last with
  | none => exact (append_nil _).symm
  | some id => rfl

theorem handleRepetitions_repeats (ruleName : List Byte) (minTimes maxTimes : Nat)
    (s : SequenceState) :
    Ensures (handleRepetitions ruleName minTimes maxTimes s)
      (Repeats ruleName minTimes maxTimes s) := by
  refine ensures_ite (fun _ => ensures_error) fun _ => ?_
  refine ensures_ite (fun _ => ensures_error) fun sane => ?_
  refine Ensures.bind (fun _ emitted => emitted) fun result emitted => ?_
  obtain ⟨last, parser⟩ := result
  refine ensures_ite (fun _ => ensures_error) fun positive => ensures_ok ?_
  simp only [decide_eq_true_eq] at emitted
  exact ⟨⟨last, emitted, repeats_rule ..⟩, rfl, Nat.le_of_not_lt positive, Nat.lt_of_not_le sane⟩

theorem handleRepetitions_returns {ruleName : List Byte} {minTimes maxTimes : Nat}
    (symbol : s.lastSymStart ≠ s.rule.length) (counted : 1 ≤ s.nPrevRules)
    (sane : s.nPrevRules * totalRules minTimes maxTimes < maxRepetitionThreshold)
    {last : Option Nat} {after : GrammarParser}
    (optional : optionalRules ruleName (s.rule.drop s.lastSymStart) (decide (maxTimes = noMaxTimes)) (optionalCount minTimes maxTimes) none s.parser = .ok (last, after)) :
    ∃ next, handleRepetitions ruleName minTimes maxTimes s = .ok next := by
  have small : s.nPrevRules * totalRules minTimes maxTimes % 2 ^ 64 =
      s.nPrevRules * totalRules minTimes maxTimes :=
    Nat.mod_eq_of_lt (Nat.lt_trans sane (by decide))
  have positive : ¬ s.nPrevRules * totalRules minTimes maxTimes < 1 :=
    not_lt.mpr (Nat.mul_le_mul counted (totalRules_pos minTimes maxTimes))
  have allowed := not_le.mpr sane
  unfold totalRules at small positive allowed
  unfold optionalCount at optional
  unfold handleRepetitions
  simp only [if_neg symbol, small, if_neg allowed, decide_eq_true_eq, optional, if_neg positive]
  exact ⟨_, rfl⟩

theorem repeatedElements_noAlt {symbol : List Element} (noAlt : ∀ e ∈ symbol, e.type ≠ .alt)
    (minTimes : Nat) (last : Option Nat) :
    ∀ e ∈ repeatedElements symbol minTimes last, e.type ≠ .alt := by
  intro e member
  rcases mem_append.mp member with copied | isRef
  · obtain ⟨copy, isCopy, inCopy⟩ := mem_flatten.mp copied
    rw [eq_of_mem_replicate isCopy] at inCopy
    exact noAlt e inCopy
  · cases last with
    | none => cases isRef
    | some id =>
      rw [mem_singleton.mp isRef]
      simp

theorem Repeats.drop {ruleName : List Byte} {minTimes maxTimes : Nat} {next : SequenceState}
    (repeats : Repeats ruleName minTimes maxTimes s next)
    (inside : s.lastSymStart ≤ s.rule.length) : ∃ last,
      optionalRules ruleName (s.rule.drop s.lastSymStart) (decide (maxTimes = noMaxTimes))
        (optionalCount minTimes maxTimes) none s.parser = .ok (last, next.parser) ∧
      next.rule.take s.lastSymStart = s.rule.take s.lastSymStart ∧
      next.rule.drop s.lastSymStart =
        repeatedElements (s.rule.drop s.lastSymStart) minTimes last := by
  obtain ⟨last, optional, rule⟩ := repeats.emitted
  have length : (s.rule.take s.lastSymStart).length = s.lastSymStart := by
    rw [length_take, min_eq_left inside]
  refine ⟨last, optional, ?_, ?_⟩
  · rw [rule]
    exact take_left' length
  · rw [rule]
    exact drop_left' length

theorem SequenceOk.inside (ok : SequenceOk before s) : s.lastSymStart ≤ s.rule.length := by
  obtain ⟨front, symbol, same, start, -⟩ := ok.parts
  rw [same, ← start, length_append]
  exact Nat.le_add_right ..

theorem SequenceOk.symbol (ok : SequenceOk before s) :
    BodyOk s.parser.symbolIds (s.rule.drop s.lastSymStart) := by
  obtain ⟨front, symbol, same, start, -, symbolOk⟩ := ok.parts
  rw [same, ← start, drop_left]
  exact symbolOk

theorem handleRepetitions_lastSymbol (ok : SequenceOk before s) (last : LastSymbol s)
    (ruleName : List Byte) (minTimes maxTimes : Nat) :
    Ensures (handleRepetitions ruleName minTimes maxTimes s) LastSymbol := by
  refine (handleRepetitions_repeats ruleName minTimes maxTimes s).mono fun next repeats => ?_
  obtain ⟨id, -, -, elements⟩ := repeats.drop ok.inside
  refine ⟨?_, repeats.counted.1, lt_trans repeats.counted.2 (by decide)⟩
  rw [repeats.start, elements]
  exact repeatedElements_noAlt last.noAlt minTimes id

theorem sequenceItem_lastSymbol (tokenize : Tokenize) (fuel : Nat) (parseGroup : ParseGroup)
    (ruleName : List Byte) (isNested : Bool) (ok : SequenceOk before s) (last : LastSymbol s)
    {next : Parsed SequenceState}
    (item : sequenceItem tokenize fuel parseGroup ruleName isNested s = some next) :
    Ensures next LastSymbol := by
  have repeats : ∀ minTimes maxTimes,
      Ensures (repeatItem ruleName isNested minTimes maxTimes s) LastSymbol :=
    fun minTimes maxTimes => handleRepetitions_lastSymbol
      (ok.move (parseSpace s.pos.tail isNested)) ⟨last.noAlt, last.counted⟩ ruleName minTimes maxTimes
  have bounds : Ensures (boundsItem ruleName isNested s) LastSymbol := by
    intro result returned
    obtain ⟨⟨minTimes, maxTimes, pos⟩, -, rest⟩ := bind_eq_ok.mp returned
    obtain ⟨_, -, rest⟩ := bind_eq_ok.mp rest
    exact handleRepetitions_lastSymbol (ok.move pos) ⟨last.noAlt, last.counted⟩ ruleName minTimes
      maxTimes result rest
  revert next
  apply item_ite (literalItem_lastSymbol fuel isNested s)
  apply item_ite (classItem_lastSymbol fuel isNested s)
  apply item_ite (tokenItem_lastSymbol tokenize isNested s)
  apply item_ite (referenceItem_lastSymbol isNested s)
  apply item_ite (groupItem_lastSymbol parseGroup ruleName isNested s)
  apply item_ite (ensures_ok
    (lastSymbol_single rfl rfl (by simp) (by simp [SequenceState.symbol])))
  apply item_ite (repeats 0 noMaxTimes)
  apply item_ite (repeats 1 noMaxTimes)
  apply item_ite (repeats 0 1)
  apply item_ite bounds
  exact fun _ impossible => by cases impossible

structure VisitOk (name : List Byte) (s : SequenceState) : Prop where
  isWord : IsWord name
  sequence : SequenceOk ⟨[], []⟩ s
  last : LastSymbol s

theorem visitOk_begin {name : List Byte} (isWord : IsWord name) {parser : GrammarParser}
    (ok : ParserOk parser) {rule : List Element} (ruleOk : BodyOk parser.symbolIds rule)
    (pos : List Byte) : VisitOk name ⟨pos, rule, rule.length, 1, parser⟩ := by
  refine ⟨isWord, ⟨⟨ok, nil_subset _⟩, rule, [], ?_, rfl, ruleOk, bodyOk_nil⟩, ?_, ?_⟩
  · exact (append_nil rule).symm
  · rw [drop_length]
    exact fun _ impossible => absurd impossible not_mem_nil
  · simp

theorem SequenceVisit.ok {tokenize : Tokenize} {fuel : Nat} {text name : List Byte} {depth : Nat}
    {isNested : Bool} (visit : SequenceVisit tokenize fuel text name depth isNested s) :
    VisitOk name s := by
  induction visit with
  | rule visit _ named _ _ =>
    have isWord := parseName_ok _ _ named
    exact visitOk_begin isWord (getSymbolId_names visit.ok isWord).ok bodyOk_nil _
  | group _ _ ih =>
    exact visitOk_begin ih.isWord
      (generateSymbolId_names ih.sequence.keeps.ok ih.isWord).ok bodyOk_nil _
  | @alternate name depth isNested s _ _ _ ih =>
    have begins := visitOk_begin ih.isWord ih.sequence.keeps.ok
      (ih.sequence.rule.append bodyOk_alt) (parseSpace s.pos.tail true)
    rw [length_append] at begins
    exact begins
  | @item name depth isNested s next _ found ih =>
    have groupOk := parseAlternates_ok tokenize fuel ih.isWord depth true
    exact ⟨ih.isWord, sequenceItem_ok tokenize fuel groupOk ih.isWord _ ih.sequence found _ rfl,
      sequenceItem_lastSymbol tokenize fuel _ _ _ ih.sequence ih.last found _ rfl⟩

end LlamaCpp.Grammar
