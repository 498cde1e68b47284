import LlamaCpp.Grammar.Denotation
import Mathlib.Data.List.TakeWhile

/-!
# Stacks and the language of a rule table

A class matches the code points in one of its items, or outside all of them when it is
negated.  In a well-formed table every class has a head, items and ranges in order, and
every reference has a rule; then `matchChar` decides the class at a position, a stack
never meets a fault, and advancing a stack keeps the words that its form accepts.
-/

set_option autoImplicit false

namespace LlamaCpp.Grammar

open LlamaCpp.Lib List

def classItems : CharClass → List (Element × Option Element)
  | [] => []
  | [e] => [(e, none)]
  | e :: next :: rest =>
    if next.type = .charRngUpper then (e, some next) :: classItems rest
    else (e, none) :: classItems (next :: rest)

def ItemMatches (chr : Nat) (item : Element × Option Element) : Prop :=
  match item.2 with
  | some upper => item.1.value ≤ chr ∧ chr ≤ upper.value
  | none => item.1.type = .charAny ∨ item.1.value = chr

/-- A range bound follows the first element of an item, and the next item begins with
`LLAMA_GRETYPE_CHAR_ALT`. -/
def itemsInOrder : CharClass → Bool
  | [] => false
  | [_] => true
  | _ :: next :: rest =>
    if next.type = .charRngUpper then
      match rest with
      | [] => true
      | other :: _ => decide (other.type = .charAlt) && itemsInOrder rest
    else decide (next.type = .charAlt) && itemsInOrder (next :: rest)

def isCharHead (e : Element) : Bool :=
  match e.type with
  | .char | .charNot | .charAny => true
  | _ => false

def isTokenElement (e : Element) : Bool :=
  match e.type with
  | .token | .tokenNot => true
  | _ => false

def ClassMatches (c : CharClass) (chr : Nat) : Prop :=
  isCharHead (c.headD endElement) = true ∧
    ((∃ item ∈ classItems c, ItemMatches chr item) ↔ (c.headD endElement).type ≠ .charNot)

def SymbolOk (rules : Rules) : Symbol CharClass Nat → Prop
  | .terminal c =>
    isCharHead (c.headD endElement) = true ∧ itemsInOrder c = true ∨
      ∃ e, c = [e] ∧ isTokenElement e = true
  | .nonterminal i => i < rules.length

structure WellFormed (rules : Rules) : Prop where
  symbols : ∀ rule ∈ rules, ∀ alternate ∈ splitAlternates rule,
    ∀ symbol ∈ symbolsOf alternate, SymbolOk rules symbol

theorem scanSymbols_eq (elements : List Element) :
    scanSymbols elements =
      (elements.takeWhile isClassTail, symbolsOf (elements.dropWhile isClassTail)) := by
  induction elements with
  | nil => rfl
  | cons e rest ih =>
    by_cases tail : isClassTail e = true
    · rw [takeWhile_cons_of_pos tail, dropWhile_cons_of_pos tail, scanSymbols,
        if_pos tail, ih]
    · rw [takeWhile_cons_of_neg tail, dropWhile_cons_of_neg tail, symbolsOf]
      have none_ : (scanSymbols (e :: rest)).1 = [] := by
        rw [scanSymbols, if_neg tail]
        split <;> rfl
      rw [none_, flushTail]
      exact Prod.ext none_ rfl

theorem symbolsOf_class {e : Element} (rest : List Element) (notRef : e.type ≠ .ruleRef) :
    symbolsOf (e :: rest) = .terminal (e :: rest.takeWhile isClassTail) ::
      symbolsOf (rest.dropWhile isClassTail) := by
  by_cases tail : isClassTail e = true
  · rw [symbolsOf, scanSymbols, if_pos tail, scanSymbols_eq, flushTail, if_neg (by simp)]
  · rw [symbolsOf, scanSymbols, if_neg tail, if_neg notRef, scanSymbols_eq, flushTail, if_pos rfl]

theorem takeWhile_classTail (elements : List Element) :
    (elements.takeWhile fun e => !isEndOfSequence e).takeWhile isClassTail =
      elements.takeWhile isClassTail := by
  rw [takeWhile_takeWhile]
  congr 1
  funext e
  cases kind : e.type <;> simp [isClassTail, isEndOfSequence, kind]

theorem restOf_advance {rules : Rules} {pos : Pos} {n : Nat}
    (inside : n ≤ (restOf rules pos).length) :
    restOf rules (pos.advance n) = (restOf rules pos).drop n := by
  rw [restOf, restOf, elementsAt_advance]
  rw [restOf] at inside
  generalize elementsAt rules pos = elements at inside
  induction elements generalizing n with
  | nil => simp
  | cons e rest ih =>
    cases n with
    | zero => rfl
    | succ n =>
      by_cases goesOn : isEndOfSequence e = false
      · rw [takeWhile_cons_of_pos (by simp [goesOn])] at inside ⊢
        exact ih (by simpa using inside)
      · rw [takeWhile_cons_of_neg (by simpa using goesOn)] at inside
        simp at inside

theorem itemMatches_single (chr : Nat) (e : Element) :
    (decide (e.type = .charAny) || decide (e.value = chr)) = true ↔ ItemMatches chr (e, none) := by
  simp [ItemMatches]

theorem itemMatches_range (chr : Nat) (e upper : Element) :
    (decide (e.value ≤ chr) && decide (chr ≤ upper.value)) = true ↔
      ItemMatches chr (e, some upper) := by
  simp [ItemMatches]

theorem matchItems_class (chr : Nat) (c after : List Element) (inOrder : itemsInOrder c = true)
    (stops : ∀ e ∈ after.head?, isClassTail e = false) :
    ((matchItems chr (c ++ after)).1 = true ↔ ∃ item ∈ classItems c, ItemMatches chr item) ∧
      (matchItems chr (c ++ after)).2 = c.length := by
  fun_induction itemsInOrder c with
  | case1 => cases inOrder
  | case2 e =>
    have single : (matchItems chr ([e] ++ after)) =
        (decide (e.type = .charAny) || decide (e.value = chr), 1) := by
      cases after with
      | nil => rfl
      | cons other after =>
        have notTail := stops other rfl
        have notRng : other.type ≠ .charRngUpper := by
          intro isRng
          simp [isClassTail, isRng] at notTail
        have notAlt : other.type ≠ .charAlt := by
          intro isAlt
          simp [isClassTail, isAlt] at notTail
        simp [matchItems, if_neg notRng, if_neg notAlt]
    rw [single]
    simp only [itemMatches_single, classItems, mem_singleton, exists_eq_left,
      length_singleton, and_self]
  | case3 e next nextRng =>
    have pair : (matchItems chr ([e, next] ++ after)) =
        (decide (e.value ≤ chr) && decide (chr ≤ next.value), 2) := by
      cases after with
      | nil => simp [matchItems, nextRng]
      | cons other after =>
        have notTail := stops other rfl
        have notAlt : other.type ≠ .charAlt := by
          intro isAlt
          simp [isClassTail, isAlt] at notTail
        simp [matchItems, if_pos nextRng, if_neg notAlt]
    rw [pair]
    simp only [itemMatches_range, classItems, if_pos nextRng, mem_singleton, exists_eq_left,
      length_cons, length_nil, and_self]
  | case4 e next nextRng other rest ih =>
    rw [Bool.and_eq_true, decide_eq_true_iff] at inOrder
    obtain ⟨found, length⟩ := ih inOrder.2
    simp only [cons_append] at found length ⊢
    simp only [matchItems, if_pos nextRng, if_pos inOrder.1, classItems, Bool.or_eq_true,
      itemMatches_range, found, length, mem_cons, exists_eq_or_imp, length_cons,
      and_self]
  | case5 e next rest notRng ih =>
    rw [Bool.and_eq_true, decide_eq_true_iff] at inOrder
    obtain ⟨found, length⟩ := ih inOrder.2
    simp only [cons_append] at found length
    simp [matchItems, if_neg notRng, if_pos inOrder.1, classItems, ← itemMatches_single, found,
      length]

/-- What is left of the alternate at a position is nonempty and well formed. -/
structure PosOk (rules : Rules) (pos : Pos) : Prop where
  inside : isEndOfSequence (elementAt rules pos) = false
  symbols : ∀ symbol ∈ symbolsOf (restOf rules pos), SymbolOk rules symbol

abbrev ValidStack (rules : Rules) (stack : Stack) : Prop := ∀ pos ∈ stack, PosOk rules pos

theorem ValidStack.push {rules : Rules} {pos : Pos} {stack : Stack} (valid : ValidStack rules stack)
    (symbols : ∀ symbol ∈ symbolsOf (restOf rules pos), SymbolOk rules symbol) :
    ValidStack rules (pushUnlessEnd rules pos stack) := by
  unfold pushUnlessEnd
  split
  · exact valid
  · rename_i inside
    intro p member
    rcases mem_cons.mp member with here | below
    · rw [here]
      exact ⟨by simpa using inside, symbols⟩
    · exact valid p below

theorem class_at {rules : Rules} {pos : Pos} (inside : isEndOfSequence (elementAt rules pos) = false)
    (notRef : (elementAt rules pos).type ≠ .ruleRef) :
    ∃ c after, elementsAt rules pos = c ++ after ∧ (∀ e ∈ after.head?, isClassTail e = false) ∧
      c.headD endElement = elementAt rules pos ∧
      symbolsOf (restOf rules pos) =
        .terminal c :: symbolsOf (restOf rules (pos.advance c.length)) := by
  have whole := restOf_of_element inside
  cases elements : elementsAt rules pos with
  | nil => simp [elementAt, elements, isEndOfSequence, endElement] at inside
  | cons e more =>
    have here : elementAt rules pos = e := by rw [elementAt, elements, headD_cons]
    rw [here] at notRef whole ⊢
    have next : restOf rules (pos.advance 1) = more.takeWhile fun e => !isEndOfSequence e := by
      rw [restOf, elementsAt_advance, elements, drop_one, tail_cons]
    have tail := takeWhile_classTail more
    rw [← next] at tail
    have split_ := takeWhile_append_dropWhile (p := isClassTail) (l := restOf rules (pos.advance 1))
    have short : (e :: more.takeWhile isClassTail).length ≤ (restOf rules pos).length := by
      rw [whole, ← tail, length_cons]
      exact Nat.succ_le_succ ( takeWhile_prefix _).length_le
    refine ⟨e :: more.takeWhile isClassTail, more.dropWhile isClassTail, ?_, ?_, rfl, ?_⟩
    · rw [cons_append, takeWhile_append_dropWhile]
    · intro other first
      have stopped := List.head?_dropWhile_not isClassTail more
      rw [Option.mem_def] at first
      simpa [first] using stopped
    · rw [restOf_advance short, whole, symbolsOf_class _ notRef, length_cons,
        drop_succ_cons, tail]
      conv_rhs => rw [← split_, tail]
      rw [drop_left]

theorem matchChar_class {rules : Rules} {pos : Pos} (ok : PosOk rules pos)
    (isChar : isCharHead (elementAt rules pos) = true) :
    ∃ c, symbolsOf (restOf rules pos) =
        .terminal c :: symbolsOf (restOf rules (pos.advance c.length)) ∧
      ∀ chr, ((matchChar rules pos chr).1 = true ↔ ClassMatches c chr) ∧
        (matchChar rules pos chr).2 = pos.advance c.length := by
  have notRef : (elementAt rules pos).type ≠ .ruleRef := by
    intro isRef
    simp [isCharHead, isRef] at isChar
  obtain ⟨c, after, elements, stops, head, symbols⟩ := class_at ok.inside notRef
  refine ⟨c, symbols, fun chr => ?_⟩
  have inOrder : itemsInOrder c = true := by
    have classOk := ok.symbols (.terminal c) (by rw [symbols]; exact mem_cons_self ..)
    rcases classOk with ⟨-, inOrder⟩ | ⟨e, single, -⟩
    · exact inOrder
    · rw [single]
      rfl
  obtain ⟨found, length⟩ := matchItems_class chr c after inOrder stops
  rw [← elements] at found length
  refine ⟨?_, by rw [matchChar, length]⟩
  have positive : isPositiveChar (elementAt rules pos) = true ↔
      (elementAt rules pos).type ≠ .charNot := by
    cases kind : (elementAt rules pos).type <;> simp_all [isPositiveChar, isCharHead]
  rw [matchChar, ClassMatches, head, beq_iff_eq, Bool.eq_iff_iff, found, positive]
  exact (and_iff_right isChar).symm

theorem ExpandsRef.form {rules : Rules} {start : Nat} {pos : Pos} {below child : Stack}
    (expands : ExpandsRef rules pos below child) :
    ∃ r : ContextFreeRule CharClass Nat, r ∈ (tableGrammar rules start).rules ∧ ∃ w : Form,
      stackForm rules (pos :: below) = .nonterminal r.input :: w ∧
      stackForm rules child = r.output ++ w := by
  obtain ⟨isRef, rule, found, s, starts, same⟩ := expands
  have inside : isEndOfSequence (elementAt rules pos) = false := inside_of_ref isRef
  refine ⟨⟨(elementAt rules pos).value, symbolsOf (restOf rules ⟨(elementAt rules pos).value, s⟩)⟩,
    mem_tableGrammar.mpr ⟨rule, found, restOf rules ⟨(elementAt rules pos).value, s⟩, ?_, rfl⟩,
    symbolsOf (restOf rules (pos.advance 1)) ++ stackForm rules below, ?_, ?_⟩
  · rw [alternates_of_starts found]
    exact mem_map.mpr ⟨s, starts, rfl⟩
  · rw [stackForm_cons, restOf_of_element inside, symbolsOf_ref _ isRef]
    rfl
  · rw [same, stackForm_push, stackForm_push]

theorem exists_child {rules : Rules} {start : Nat} {pos : Pos} {below : Stack}
    (isRef : (elementAt rules pos).type = .ruleRef) {r : ContextFreeRule CharClass Nat}
    (member : r ∈ (tableGrammar rules start).rules) (here : r.input = (elementAt rules pos).value) :
    ∃ child, ExpandsRef rules pos below child ∧
      stackForm rules child = r.output ++
        (symbolsOf (restOf rules (pos.advance 1)) ++ stackForm rules below) := by
  obtain ⟨rule, found, alternate, isAlternate, output⟩ := mem_tableGrammar.mp member
  rw [alternates_of_starts found] at isAlternate
  obtain ⟨s, starts, same⟩ := mem_map.mp isAlternate
  rw [here] at found same
  refine ⟨_, ⟨isRef, rule, found, s, starts, rfl⟩, ?_⟩
  rw [stackForm_push, stackForm_push, same, output]

theorem symbols_of_start {rules : Rules} (wellFormed : WellFormed rules) {id s : Nat} {rule : Rule}
    (found : rules[id]? = some rule) (starts : s ∈ alternateStarts rule) :
    ∀ symbol ∈ symbolsOf (restOf rules ⟨id, s⟩), SymbolOk rules symbol := by
  refine wellFormed.symbols rule (mem_of_getElem? found) _ ?_
  rw [alternates_of_starts found]
  exact mem_map.mpr ⟨s, starts, rfl⟩

theorem PosOk.after_ref {rules : Rules} {pos : Pos} (ok : PosOk rules pos)
    (isRef : (elementAt rules pos).type = .ruleRef) :
    (elementAt rules pos).value < rules.length ∧
      ∀ symbol ∈ symbolsOf (restOf rules (pos.advance 1)), SymbolOk rules symbol := by
  have symbols := ok.symbols
  rw [restOf_of_element ok.inside, symbolsOf_ref _ isRef] at symbols
  exact ⟨symbols _ (mem_cons_self ..), fun symbol member =>
    symbols symbol (mem_cons_of_mem _ member)⟩

theorem ValidStack.expands {rules : Rules} (wellFormed : WellFormed rules) {stack child : Stack}
    (valid : ValidStack rules stack) (step : Expands (visitStack rules) stack child) :
    ValidStack rules child := by
  cases stack with
  | nil => exact absurd step not_expands_nil
  | cons pos below =>
    obtain ⟨isRef, rule, found, s, starts, same⟩ := expands_iff.mp step
    rw [same]
    have ok := valid pos (mem_cons_self ..)
    have validBelow : ValidStack rules below := fun p member => valid p (mem_cons_of_mem _ member)
    exact (validBelow.push (ok.after_ref isRef).2).push (symbols_of_start wellFormed found starts)

def isTerminalElement (e : Element) : Bool := isCharHead e || isTokenElement e

theorem visit_leaf_iff {rules : Rules} {pos : Pos} {below : Stack} :
    visitStack rules (pos :: below) = .leaf ↔ isTerminalElement (elementAt rules pos) = true := by
  rw [visitStack, isTerminalElement, isCharHead, isTokenElement]
  cases kind : (elementAt rules pos).type <;> simp
  split <;> simp

theorem PosOk.ref_or_terminal {rules : Rules} {pos : Pos} (ok : PosOk rules pos) :
    (elementAt rules pos).type = .ruleRef ∨ isTerminalElement (elementAt rules pos) = true := by
  by_cases isRef : (elementAt rules pos).type = .ruleRef
  · exact Or.inl isRef
  · obtain ⟨c, after, elements, stops, head, symbols⟩ := class_at ok.inside isRef
    have classOk := ok.symbols (.terminal c) (by rw [symbols]; exact mem_cons_self ..)
    rw [isTerminalElement, Bool.or_eq_true, ← head]
    rcases classOk with ⟨isChar, -⟩ | ⟨e, single, isToken⟩
    · exact Or.inr (Or.inl isChar)
    · rw [single]
      exact Or.inr (Or.inr isToken)

theorem ValidStack.not_fault {rules : Rules} {stack : Stack} (valid : ValidStack rules stack) :
    visitStack rules stack ≠ .fault := by
  cases stack with
  | nil => exact fun fault => by cases fault
  | cons pos below =>
    have ok := valid pos (mem_cons_self ..)
    rcases ok.ref_or_terminal with isRef | terminal
    · have inside := (ok.after_ref isRef).1
      simp only [visitStack, isRef, List.getElem?_eq_getElem inside]
      exact fun fault => by cases fault
    · rw [visit_leaf_iff.mpr terminal]
      exact fun fault => by cases fault

abbrev StackAccepts (rules : Rules) (start : Nat) (stack : Stack) (chars : List Nat) : Prop :=
  Accepts (tableGrammar rules start) ClassMatches (stackForm rules stack) chars

theorem ValidStack.leaf_or_ref {rules : Rules} {stack : Stack} (valid : ValidStack rules stack) :
    visitStack rules stack = .leaf ∨ ∃ pos below, stack = pos :: below ∧
      (elementAt rules pos).type = .ruleRef ∧
      stackForm rules stack = .nonterminal (elementAt rules pos).value ::
        (symbolsOf (restOf rules (pos.advance 1)) ++ stackForm rules below) := by
  cases stack with
  | nil => exact Or.inl rfl
  | cons pos below =>
    have ok := valid pos (mem_cons_self ..)
    rcases ok.ref_or_terminal with isRef | terminal
    · refine Or.inr ⟨pos, below, rfl, isRef, ?_⟩
      rw [stackForm_cons, restOf_of_element ok.inside, symbolsOf_ref _ isRef]
      rfl
    · exact Or.inl (visit_leaf_iff.mpr terminal)

/-- By induction on the acceptance, which replaces the first nonterminal when it meets it. -/
theorem exists_leaf {rules : Rules} {start : Nat} (wellFormed : WellFormed rules)
    {w : List (Symbol CharClass (tableGrammar rules start).NT)} {chars : List Nat}
    (accepts : Accepts (tableGrammar rules start) ClassMatches w chars) :
    ∀ stack, ValidStack rules stack → stackForm rules stack = w →
      ∃ found, Reachable (visitStack rules) stack found ∧ visitStack rules found = .leaf ∧
        StackAccepts rules start found chars := by
  induction accepts with
  | nil =>
    intro stack valid form
    rcases valid.leaf_or_ref with leaf | ⟨pos, below, -, -, refForm⟩
    · exact ⟨stack, .refl, leaf, by rw [StackAccepts, form]; exact .nil⟩
    · rw [form] at refForm
      cases refForm
  | terminal fits rest =>
    intro stack valid form
    rcases valid.leaf_or_ref with leaf | ⟨pos, below, -, -, refForm⟩
    · exact ⟨stack, .refl, leaf, by rw [StackAccepts, form]; exact .terminal fits rest⟩
    · rw [form] at refForm
      cases refForm
  | @rule r w chars member rest ih =>
    intro stack valid form
    rcases valid.leaf_or_ref with leaf | ⟨pos, below, same, isRef, refForm⟩
    · exact ⟨stack, .refl, leaf, by rw [StackAccepts, form]; exact .rule member rest⟩
    · obtain ⟨head, tail⟩ := List.cons.inj (form.symm.trans refForm)
      obtain ⟨child, expands, childForm⟩ := exists_child isRef member (Symbol.nonterminal.inj head)
      have step := expands_iff.mpr expands
      rw [← same] at step
      rw [← tail] at childForm
      obtain ⟨found, path, leaf, accepts⟩ := ih child (valid.expands wellFormed step) childForm
      exact ⟨found, .head step path, leaf, accepts⟩

theorem stackAccepts_iff {rules : Rules} {start : Nat} {stack : Stack} (wellFormed : WellFormed rules)
    (valid : ValidStack rules stack) (chars : List Nat) :
    StackAccepts rules start stack chars ↔ ∃ found, Reachable (visitStack rules) stack found ∧
      visitStack rules found = .leaf ∧ StackAccepts rules start found chars := by
  constructor
  · exact fun accepts => exists_leaf wellFormed accepts stack valid rfl
  · rintro ⟨found, path, -, accepts⟩
    induction path using Relation.ReflTransGen.head_induction_on with
    | refl => exact accepts
    | @head stack child step _ ih =>
      cases stack with
      | nil => exact absurd step not_expands_nil
      | cons pos below =>
        obtain ⟨r, member, w, before, after⟩ := @ExpandsRef.form rules start _ _ _ (expands_iff.mp step)
        have rest := ih (valid.expands wellFormed step)
        rw [StackAccepts, after] at rest
        rw [StackAccepts, before]
        exact .rule member rest

end LlamaCpp.Grammar
