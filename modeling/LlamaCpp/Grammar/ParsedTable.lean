import LlamaCpp.Grammar.EmptyGroups
import LlamaCpp.Grammar.NoAbort
import LlamaCpp.Grammar.ParserShape

/-!
# The table of an accepted text

A body whose elements follow each other is made of whole classes, so the table of a text that
is accepted is well formed, and no run from its stacks aborts.  Different names have different
ids as long as these fit into 32 bits.
-/

set_option autoImplicit false

namespace LlamaCpp.Grammar

open LlamaCpp.Lib List Bool

theorem classesFrom_fresh {elements : List Element} (previous other : Gretype)
    (fresh : ∀ e ∈ elements.head?, isClassTail e = false)
    (classes : classesFrom previous elements = true) : classesFrom other elements = true := by
  cases elements with
  | nil => rfl
  | cons e rest =>
    rw [classesFrom, and_eq_true] at classes ⊢
    exact ⟨follows_of_not_tail other (fresh e rfl), classes.2⟩

theorem isAlt_of_tail {e : Element} (isTail : isClassTail e = true)
    (notRng : e.type ≠ .charRngUpper) : e.type = .charAlt := by
  obtain ⟨type, value⟩ := e
  cases type with
  | charAlt => rfl
  | charRngUpper => exact absurd rfl notRng
  | _ => cases isTail

theorem itemsInOrder_of_classes (c : CharClass) (some_ : c ≠ [])
    (areTails : ∀ e ∈ c.tail, isClassTail e = true)
    (classes : classesFrom (c.headD endElement).type c.tail = true) : itemsInOrder c = true := by
  fun_induction itemsInOrder c with
  | case1 => exact absurd rfl some_
  | case2 => rfl
  | case3 => rfl
  | case4 e next nextRng other rest ih =>
    simp only [tail_cons, classesFrom, and_eq_true] at classes
    have isTail := areTails other (mem_cons_of_mem _ (mem_cons_self ..))
    have notRng : other.type ≠ .charRngUpper := by
      intro isRng
      have afterRng := classes.2.1
      rw [nextRng, isRng] at afterRng
      cases afterRng
    rw [and_eq_true]
    refine ⟨decide_eq_true (isAlt_of_tail isTail notRng), ih (cons_ne_nil _ _)
      (fun item member => ?_) classes.2.2⟩
    exact areTails item (mem_cons_of_mem _ (mem_cons_of_mem _ member))
  | case5 e next rest notRng ih =>
    simp only [tail_cons, classesFrom, and_eq_true] at classes
    have isTail := areTails next (mem_cons_self ..)
    rw [and_eq_true]
    exact ⟨decide_eq_true (isAlt_of_tail isTail notRng), ih (cons_ne_nil _ _)
      (fun item member => areTails item (mem_cons_of_mem _ member)) classes.2⟩

theorem no_tails {tails : List Element} {previous : Gretype} (noClass : isClassType previous = false)
    (areTails : ∀ e ∈ tails, isClassTail e = true) (classes : classesFrom previous tails = true) :
    tails = [] := by
  cases tails with
  | nil => rfl
  | cons e rest =>
    have isTail := areTails e (mem_cons_self ..)
    rw [classesFrom, and_eq_true] at classes
    rw [isClassType_of_follows isTail classes.1] at noClass
    cases noClass

theorem char_of_class {e : Element} (isClass : isClassType e.type = true)
    (notTail : isClassTail e = false) : e.type = .char ∨ e.type = .charNot := by
  obtain ⟨type, value⟩ := e
  cases type with
  | char => exact Or.inl rfl
  | charNot => exact Or.inr rfl
  | charAlt => cases notTail
  | charRngUpper => cases notTail
  | _ => cases isClass

theorem class_before (front : List Element) {e : Element} (isTail : isClassTail e = true)
    (classes : classesFrom .end (front ++ [e]) = true) :
    ∃ before head items, front = before ++ head :: items ∧
      (head.type = .char ∨ head.type = .charNot) ∧ ∀ item ∈ items, isClassTail item = true := by
  induction front using List.reverseRecOn generalizing e with
  | nil =>
    rw [nil_append, classesFrom, and_eq_true] at classes
    have impossible := isClassType_of_follows isTail classes.1
    cases impossible
  | append_singleton front last ih =>
    rw [classesFrom_append, and_eq_true, lastType_append] at classes
    by_cases lastTail : isClassTail last = true
    · obtain ⟨before, head, items, same, begins, areTails⟩ := ih lastTail classes.1
      refine ⟨before, head, items ++ [last], ?_, begins, fun item member => ?_⟩
      · rw [same, append_assoc, cons_append]
      · rcases mem_append.mp member with inItems | isLast
        · exact areTails item inItems
        · rw [mem_singleton.mp isLast]
          exact lastTail
    · refine ⟨front, last, [], rfl, ?_, fun _ impossible => absurd impossible not_mem_nil⟩
      have follow := classes.2
      rw [classesFrom, and_eq_true] at follow
      exact char_of_class (isClassType_of_follows isTail follow.1) (eq_false_iff.mpr lastTail)

theorem splitAlternates_classes (elements : List Element) (previous : Gretype)
    (classes : classesFrom previous elements = true) :
    (∀ first ∈ (splitAlternates elements).head?, classesFrom previous first = true) ∧
      ∀ later ∈ (splitAlternates elements).tail, classesFrom .end later = true := by
  induction elements generalizing previous with
  | nil =>
    refine ⟨fun first isFirst => ?_, fun _ impossible => absurd impossible not_mem_nil⟩
    cases isFirst
    rfl
  | cons e rest ih =>
    rw [classesFrom, and_eq_true] at classes
    obtain ⟨firstOk, othersOk⟩ := ih e.type classes.2
    by_cases atEnd : isEndOfSequence e = true
    · rw [splitAlternates]
      split
      · refine ⟨fun first isFirst => ?_, fun _ impossible => absurd impossible not_mem_nil⟩
        cases isFirst
        rfl
      · rename_i notEnd
        have isAlt := (isEndOfSequence_iff.mp atEnd).resolve_left notEnd
        rw [if_pos isAlt]
        refine ⟨fun first isFirst => ?_, fun later member => ?_⟩
        · cases isFirst
          rfl
        · rw [splitAlternates_eq 0 rest] at member
          rw [splitAlternates_eq 0 rest] at firstOk othersOk
          rcases mem_cons.mp member with here | further
          · rw [here]
            rw [isAlt] at firstOk
            exact classesFrom_any rfl (firstOk _ rfl) .end
          · exact othersOk later further
    · obtain ⟨first, others, before, split_⟩ :=
        splitAlternates_cons rest (eq_false_iff.mpr atEnd)
      rw [before] at firstOk othersOk
      rw [split_]
      refine ⟨fun whole isFirst => ?_, othersOk⟩
      cases isFirst
      rw [classesFrom, classes.1, firstOk first rfl]
      rfl

theorem mem_of_mem_alternate {elements alternate : List Element} {e : Element}
    (isAlternate : alternate ∈ splitAlternates elements) (member : e ∈ alternate) :
    e ∈ elements ∧ isEndOfSequence e = false := by
  have inPart : ∀ n, e ∈ ((elements.drop n).takeWhile fun e => !isEndOfSequence e) →
      e ∈ elements ∧ isEndOfSequence e = false := by
    intro n taken
    refine ⟨mem_of_mem_drop (( takeWhile_prefix _).subset taken), ?_⟩
    simpa using mem_takeWhile_imp taken
  rw [splitAlternates_eq 0] at isAlternate
  rcases mem_cons.mp isAlternate with here | later
  · rw [here] at member
    exact inPart 0 member
  · obtain ⟨s, -, same⟩ := mem_map.mp later
    rw [← same] at member
    exact inPart (s - 0) member

theorem token_of_rest {e : Element} (notEnd : isEndOfSequence e = false)
    (notRef : e.type ≠ .ruleRef) (notTail : isClassTail e = false) (notChar : isCharHead e = false) :
    isTokenElement e = true ∧ isClassType e.type = false := by
  obtain ⟨type, value⟩ := e
  cases type with
  | token => exact ⟨rfl, rfl⟩
  | tokenNot => exact ⟨rfl, rfl⟩
  | ruleRef => exact absurd rfl notRef
  | «end» => cases notEnd
  | alt => cases notEnd
  | charAlt => cases notTail
  | charRngUpper => cases notTail
  | _ => cases notChar

theorem symbols_of_classes {rules : Rules} (alternate : List Element)
    (classes : classesFrom .end alternate = true)
    (inside : ∀ e ∈ alternate, isEndOfSequence e = false)
    (refs : ∀ e ∈ alternate, e.type = .ruleRef → e.value < rules.length) :
    ∀ symbol ∈ symbolsOf alternate, SymbolOk rules symbol := by
  generalize size : alternate.length = n
  induction n using Nat.strongRecOn generalizing alternate with
  | _ n ih =>
    cases alternate with
    | nil => exact fun _ impossible => absurd impossible not_mem_nil
    | cons e rest =>
      rw [classesFrom, and_eq_true] at classes
      have goesOn : ∀ part, part.length ≤ rest.length → (∀ e ∈ part, e ∈ rest) →
          classesFrom .end part = true → ∀ symbol ∈ symbolsOf part, SymbolOk rules symbol := by
        intro part short subset partClasses
        refine ih part.length ?_ part partClasses
          (fun other member => inside other (mem_cons_of_mem _ (subset other member)))
          (fun other member => refs other (mem_cons_of_mem _ (subset other member))) rfl
        rw [← size]
        exact Nat.lt_succ_of_le short
      by_cases isRef : e.type = .ruleRef
      · rw [symbolsOf_ref rest isRef]
        intro symbol member
        rcases mem_cons.mp member with here | later
        · rw [here]
          exact refs e (mem_cons_self ..) isRef
        · refine goesOn rest (le_refl _) (fun _ inRest => inRest) ?_ symbol later
          rw [isRef] at classes
          exact classesFrom_any rfl classes.2 .end
      · rw [symbolsOf_class rest isRef]
        have parts := takeWhile_append_dropWhile (p := isClassTail) (l := rest)
        have both := classes.2
        rw [← parts, classesFrom_append, and_eq_true] at both
        have areTails : ∀ item ∈ rest.takeWhile isClassTail, isClassTail item = true :=
          fun item member => mem_takeWhile_imp member
        intro symbol member
        rcases mem_cons.mp member with here | later
        · rw [here]
          have inOrder : itemsInOrder (e :: rest.takeWhile isClassTail) = true :=
            itemsInOrder_of_classes _ (cons_ne_nil _ _) areTails both.1
          by_cases isChar : isCharHead e = true
          · exact Or.inl ⟨isChar, inOrder⟩
          · have notEnd := inside e (mem_cons_self ..)
            have notTail : isClassTail e = false := by
              by_contra isTail
              rw [not_eq_false] at isTail
              have impossible := isClassType_of_follows isTail classes.1
              cases impossible
            have token := token_of_rest notEnd isRef notTail (eq_false_iff.mpr isChar)
            refine Or.inr ⟨e, ?_, token.1⟩
            rw [no_tails token.2 areTails both.1]
        · refine goesOn (rest.dropWhile isClassTail) (dropWhile_suffix _).length_le
            (fun other inPart => (dropWhile_suffix _).subset inPart) ?_ symbol later
          refine classesFrom_fresh _ .end (fun other isFirst => ?_) both.2
          have stopped := List.head?_dropWhile_not isClassTail rest
          rw [Option.mem_def] at isFirst
          simpa [isFirst] using stopped

section

variable {symbolIds : List (List Byte × Nat)}

theorem RuleOk.copyRule {rule : List Element} (ok : RuleOk symbolIds rule) :
    copyRule rule = rule := by
  obtain ⟨body, same, bodyOk⟩ := ok
  have kept : ∀ e ∈ body, decide (e.type ≠ .end) = true := fun e member =>
    decide_eq_true (bodyOk.noEnd e member)
  rw [same, Grammar.copyRule, takeWhile_append_of_pos kept,
    takeWhile_cons_of_neg (by simp), append_nil]
  rfl

theorem RuleOk.classes {rule : List Element} (ok : RuleOk symbolIds rule) :
    classesFrom .end rule = true := by
  obtain ⟨body, same, bodyOk⟩ := ok
  rw [same, classesFrom_append, bodyOk.classes]
  rfl

end

section

variable {parser : GrammarParser} (ok : TableOk parser)

include ok

theorem TableOk.copyRules : copyRules parser.rules = parser.rules := by
  rw [Grammar.copyRules, map_congr_left fun rule member => (ok.rules rule member).copyRule,
    map_id']

theorem TableOk.wellFormed : WellFormed (Grammar.copyRules parser.rules) := by
  rw [ok.copyRules]
  refine ⟨fun rule member alternate isAlternate => ?_⟩
  have classes := splitAlternates_classes rule .end (ok.rules rule member).classes
  have inRule := fun e => @mem_of_mem_alternate rule alternate e isAlternate
  refine symbols_of_classes alternate ?_ (fun e inAlternate => (inRule e inAlternate).2)
    fun e inAlternate => ok.refs rule member e (inRule e inAlternate).1
  rw [splitAlternates_eq 0 rule] at classes isAlternate
  rcases mem_cons.mp isAlternate with here | later
  · rw [here]
    exact classes.1 _ rfl
  · exact classes.2 alternate later

end

/-- A well-formed rule table: every rule has one end element, its last, every reference has a rule,
and in front of every class tail are the items of its class, in order, behind the element that
begins it. -/
structure WellFormedTable (rules : List (List Element)) : Prop where
  ends : ∀ rule ∈ rules, ∃ body, rule = body ++ [⟨.end, 0⟩] ∧ ∀ e ∈ body, e.type ≠ .end
  refs : ∀ rule ∈ rules, ∀ e ∈ rule, e.type = .ruleRef → e.value < rules.length
  classes : ∀ rule ∈ rules, ∀ front e back, rule = front ++ e :: back → isClassTail e = true →
    ∃ before head items, front = before ++ head :: items ∧
      (head.type = .char ∨ head.type = .charNot) ∧ (∀ item ∈ items, isClassTail item = true) ∧
      itemsInOrder (head :: items ++ [e]) = true

theorem TableOk.table {parser : GrammarParser} (ok : TableOk parser) :
    WellFormedTable parser.rules := by
  refine ⟨fun rule member => ?_, ok.refs, fun rule member front e back same isTail => ?_⟩
  · obtain ⟨body, same, bodyOk⟩ := ok.rules rule member
    exact ⟨body, same, bodyOk.noEnd⟩
  · have classes := (ok.rules rule member).classes
    rw [same, append_cons, classesFrom_append, and_eq_true] at classes
    obtain ⟨before, head, items, parts, begins, areTails⟩ := class_before front isTail classes.1
    refine ⟨before, head, items, parts, begins, areTails, ?_⟩
    have inClass := classes.1
    rw [parts, append_assoc, classesFrom_append, and_eq_true] at inClass
    have behind := inClass.2
    rw [cons_append, classesFrom, and_eq_true] at behind
    apply itemsInOrder_of_classes _ (cons_ne_nil _ _) ?_ behind.2
    intro item inItems
    rcases mem_append.mp inItems with before_ | here
    · exact areTails item before_
    · rw [mem_singleton.mp here]
      exact isTail

theorem NamesOk.name_eq {symbolIds : List (List Byte × Nat)} (ok : NamesOk symbolIds)
    (fit : symbolIds.length ≤ 2 ^ 32) {name other : List Byte} {id : Nat}
    (first : (name, id) ∈ symbolIds) (second : (other, id) ∈ symbolIds) : name = other := by
  have same := inj_on_of_nodup_map (ok.ids fit).1 first second rfl
  exact congrArg Prod.fst same

/-- The table of an accepted text is well formed, its names have different ids while these fit into
32 bits, and no run from the stacks that it begins with aborts. -/
theorem parse_wellFormed (tokenize : Tokenize) (fuel : Nat) (src : List Byte)
    (parser : GrammarParser) (accepted : parse tokenize fuel src = .ok parser) :
    WellFormedTable parser.rules ∧
      (parser.symbolIds.length ≤ 2 ^ 32 → ∀ name other id, (name, id) ∈ parser.symbolIds →
        (other, id) ∈ parser.symbolIds → name = other) ∧
      ∀ root initFuel initial grammar,
        initImpl parser.rules root initFuel = .done (some initial) →
        RunReaches (copyRules parser.rules) initial grammar → ∀ runFuel,
          (∀ token piece,
            acceptToken (copyRules parser.rules) runFuel token piece grammar ≠ .aborted) ∧
          ∀ noStacks, noStacks ≠ .aborted → ∀ depth candidates,
            rejectCandidatesOr (copyRules parser.rules) runFuel noStacks depth
              grammar.grammarStacks candidates ≠ .aborted := by
  have ok := parse_tableOk tokenize fuel src parser accepted
  refine ⟨ok.table, fun fit _ _ _ => ok.names.name_eq fit, ?_⟩
  intro root initFuel initial grammar begins run runFuel
  obtain ⟨inside, rests⟩ := initImpl_rests ok.wellFormed begins
  have ready : ∀ stack ∈ grammar.grammarStacks, Ready (copyRules parser.rules) stack :=
    fun stack member => (run.rests rests stack member).ready ok.wellFormed inside
  constructor
  · exact fun token piece => acceptToken_not_aborted ok.wellFormed runFuel token piece ready
  · intro noStacks harmless depth candidates
    exact rejectCandidatesOr_not_aborted ok.wellFormed runFuel harmless depth _ candidates ready

/-- `root ::= [a-c]? item` and `item ::= "d" | [^e]`. -/
def itemText : List Byte := utf8Bytes "root ::= [a-c]? item\nitem ::= \"d\" | [^e]"

def itemParser : GrammarParser :=
  ⟨[(utf8Bytes "item", 2), (utf8Bytes "root", 0), (utf8Bytes "root_1", 1)],
    [[⟨.ruleRef, 1⟩, ⟨.ruleRef, 2⟩, ⟨.end, 0⟩],
      [⟨.char, 0x61⟩, ⟨.charRngUpper, 0x63⟩, ⟨.alt, 0⟩, ⟨.end, 0⟩],
      [⟨.char, 0x64⟩, ⟨.alt, 0⟩, ⟨.charNot, 0x65⟩, ⟨.end, 0⟩]]⟩

def itemStacks : Stacks := [[⟨2, 2⟩], [⟨2, 0⟩], [⟨1, 0⟩, ⟨0, 1⟩]]

/-- The state after the token 7, whose piece is `b`. -/
def afterItem : GrammarState := ⟨[[], [⟨2, 2⟩], [⟨2, 0⟩]], ⟨0x62, 0⟩⟩

theorem afterItem_reached : RunReaches (copyRules itemParser.rules) itemStacks afterItem := by
  have stepped : tokenStep (copyRules itemParser.rules) ⟨itemStacks, ⟨0, 0⟩⟩ ⟨7, [0x62], 4⟩ =
      some afterItem := by decide +kernel
  exact .tail .refl trivial stepped

theorem parse_wellFormed_at_item :
    WellFormedTable itemParser.rules ∧
      acceptToken (copyRules itemParser.rules) 4 9 [0x64] afterItem ≠ .aborted ∧
      rejectCandidatesOr (copyRules itemParser.rules) 4 .timeout 3 afterItem.grammarStacks
        [⟨0, [0x64, 0], 0, ⟨0, 0⟩, 9⟩] ≠ .aborted := by
  have accepted : parse none 40 itemText = .ok itemParser := by decide +kernel
  have begins : initImpl itemParser.rules 0 10 = .done (some itemStacks) := by decide +kernel
  obtain ⟨table, -, runs⟩ := parse_wellFormed none 40 itemText itemParser accepted
  obtain ⟨tokens, mask⟩ := runs 0 10 itemStacks afterItem begins afterItem_reached 4
  exact ⟨table, tokens 9 [0x64], mask .timeout (fun impossible => by cases impossible) 3 _⟩

/-- Behind as many names as there are ids, the rule `r` and its last group `r_0` have the id 0. -/
theorem parse_ids_wrap :
    ∃ parser, parse none (4294967294 + 8) (wrapText 4294967294) = .ok parser ∧
      ¬ ∀ name other id, (name, id) ∈ parser.symbolIds → (other, id) ∈ parser.symbolIds →
        name = other := by
  have wraps : 4294967294 + 2 = 2 ^ 32 := rfl
  obtain ⟨parser, accepted, root, group⟩ := parse_wrapText wraps
  refine ⟨parser, accepted, fun distinct => ?_⟩
  exact generatedName_ne_root 0 (distinct _ _ 0 group root)

end LlamaCpp.Grammar
