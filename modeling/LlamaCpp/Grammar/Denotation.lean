import LlamaCpp.Grammar.Elements
import LlamaCpp.Lib.Cfg

/-!
# The grammar that a rule table denotes

The nonterminals are the indices of the rules.  A reference is a nonterminal; any other
element with the class elements that follow it is one terminal.  A stack denotes the
sentential form of what is left of its alternates, from the top down, and expanding a
reference on top of a stack is one leftmost step.
-/

set_option autoImplicit false

namespace LlamaCpp.Grammar

open LlamaCpp.Lib List

def isClassTail (e : Element) : Bool :=
  match e.type with
  | .charRngUpper | .charAlt => true
  | _ => false

abbrev CharClass := List Element

abbrev Form := List (Symbol CharClass Nat)

def flushTail (tail : List Element) (symbols : Form) : Form :=
  if tail = [] then symbols else .terminal tail :: symbols

def scanSymbols : List Element → List Element × Form
  | [] => ([], [])
  | e :: rest =>
    if isClassTail e then (e :: (scanSymbols rest).1, (scanSymbols rest).2)
    else if e.type = .ruleRef then
      ([], .nonterminal e.value :: flushTail (scanSymbols rest).1 (scanSymbols rest).2)
    else ([], .terminal (e :: (scanSymbols rest).1) :: (scanSymbols rest).2)

def symbolsOf (alternate : List Element) : Form :=
  flushTail (scanSymbols alternate).1 (scanSymbols alternate).2

/-- The alternates of a rule, which `LLAMA_GRETYPE_ALT` separates. -/
def splitAlternates : List Element → List (List Element)
  | [] => [[]]
  | e :: rest =>
    if e.type = .end then [[]]
    else if e.type = .alt then [] :: splitAlternates rest
    else
      match splitAlternates rest with
      | first :: others => (e :: first) :: others
      | [] => [[e]]

def tableGrammar (rules : Rules) (start : Nat) : ContextFreeGrammar CharClass where
  NT := Nat
  initial := start
  rules := ((List.range rules.length).flatMap fun i =>
    (splitAlternates (rules.getD i [])).map fun alternate =>
      ContextFreeRule.mk i (symbolsOf alternate)).toFinset

def restOf (rules : Rules) (pos : Pos) : List Element :=
  (elementsAt rules pos).takeWhile fun e => !isEndOfSequence e

def stackForm (rules : Rules) (stack : Stack) : Form :=
  stack.flatMap fun pos => symbolsOf (restOf rules pos)

variable {rules : Rules} {pos : Pos}

theorem mem_tableGrammar {start : Nat} {r : ContextFreeRule CharClass Nat} :
    r ∈ (tableGrammar rules start).rules ↔ ∃ rule, rules[r.input]? = some rule ∧
      ∃ alternate ∈ splitAlternates rule, r.output = symbolsOf alternate := by
  change r ∈ List.toFinset _ ↔ _
  rw [mem_toFinset, mem_flatMap]
  constructor
  · rintro ⟨i, inside, member⟩
    obtain ⟨alternate, isAlternate, same⟩ := mem_map.mp member
    rw [mem_range] at inside
    refine ⟨rules[i], by rw [← same]; exact List.getElem?_eq_getElem inside, alternate, ?_,
      by rw [← same]⟩
    rw [getD_eq_getElem?_getD, List.getElem?_eq_getElem inside] at isAlternate
    exact isAlternate
  · rintro ⟨rule, found, alternate, isAlternate, same⟩
    obtain ⟨inside, equal⟩ := List.getElem?_eq_some_iff.mp found
    refine ⟨r.input, mem_range.mpr inside, mem_map.mpr ⟨alternate, ?_, ?_⟩⟩
    · rw [getD_eq_getElem?_getD, found]
      exact isAlternate
    · rw [← same]

theorem lt_of_mem_laterAlternates {i s : Nat} {elements : List Element}
    (member : s ∈ laterAlternates i elements) : i < s := by
  induction elements generalizing i with
  | nil => cases member
  | cons e rest ih =>
    simp only [laterAlternates] at member
    split at member
    · rcases mem_cons.mp member with here | later
      · omega
      · have := ih later
        omega
    · split at member
      · cases member
      · have := ih member
        omega

theorem splitAlternates_eq (i : Nat) (elements : List Element) :
    splitAlternates elements =
      (elements.takeWhile fun e => !isEndOfSequence e) ::
        (laterAlternates i elements).map fun s =>
          (elements.drop (s - i)).takeWhile fun e => !isEndOfSequence e := by
  induction elements generalizing i with
  | nil => rfl
  | cons e rest ih =>
    have shifted : (laterAlternates (i + 1) rest).map
        (fun s => ((e :: rest).drop (s - i)).takeWhile fun e => !isEndOfSequence e) =
        (laterAlternates (i + 1) rest).map
          fun s => (rest.drop (s - (i + 1))).takeWhile fun e => !isEndOfSequence e := by
      apply map_congr_left
      intro s member
      have := lt_of_mem_laterAlternates member
      obtain ⟨k, same⟩ : ∃ k, s - i = k + 1 := ⟨s - i - 1, by omega⟩
      rw [same, drop_succ_cons]
      congr 2
      omega
    simp only [splitAlternates, laterAlternates]
    split
    · rename_i isEnd
      simp [isEndOfSequence, isEnd]
    · rename_i notEnd
      split
      · rename_i isAlt
        rw [ih (i + 1), map_cons, shifted]
        simp [isEndOfSequence, isAlt]
      · rename_i notAlt
        have more : isEndOfSequence e = false := inside_of_ne notEnd notAlt
        rw [ih (i + 1), shifted, takeWhile_cons_of_pos (by simp [more])]

theorem alternates_of_starts {id : Nat} {rule : Rule} (found : rules[id]? = some rule) :
    splitAlternates rule = (alternateStarts rule).map fun s => restOf rules ⟨id, s⟩ := by
  have here : rules.getD id [] = rule := by
    rw [getD_eq_getElem?_getD, found, Option.getD_some]
  simp only [splitAlternates_eq 0, alternateStarts, restOf, elementsAt, here, map_cons,
    drop_zero, Nat.sub_zero]

theorem elementsAt_advance (rules : Rules) (pos : Pos) (n : Nat) :
    elementsAt rules (pos.advance n) = (elementsAt rules pos).drop n := by
  simp [elementsAt, Pos.advance]

theorem restOf_of_element (inside : isEndOfSequence (elementAt rules pos) = false) :
    restOf rules pos = elementAt rules pos :: restOf rules (pos.advance 1) := by
  rw [restOf, restOf, elementsAt_advance]
  cases elements : elementsAt rules pos with
  | nil => simp [elementAt, elements, isEndOfSequence, endElement] at inside
  | cons e rest =>
    have here : elementAt rules pos = e := by rw [elementAt, elements, headD_cons]
    rw [here] at inside ⊢
    rw [takeWhile_cons_of_pos (by simp [inside]), drop_one, tail_cons]

theorem restOf_end (atEnd : isEndOfSequence (elementAt rules pos) = true) :
    restOf rules pos = [] := by
  rw [restOf]
  cases elements : elementsAt rules pos with
  | nil => rfl
  | cons e rest =>
    have here : elementAt rules pos = e := by rw [elementAt, elements, headD_cons]
    rw [here] at atEnd
    rw [takeWhile_cons_of_neg (by simp [atEnd])]

theorem stackForm_cons (rules : Rules) (pos : Pos) (below : Stack) :
    stackForm rules (pos :: below) = symbolsOf (restOf rules pos) ++ stackForm rules below :=
  flatMap_cons

theorem stackForm_push (rules : Rules) (pos : Pos) (stack : Stack) :
    stackForm rules (pushUnlessEnd rules pos stack) =
      symbolsOf (restOf rules pos) ++ stackForm rules stack := by
  unfold pushUnlessEnd
  split
  · rename_i atEnd
    rw [restOf_end atEnd]
    rfl
  · exact stackForm_cons rules pos stack

theorem symbolsOf_ref {e : Element} (rest : List Element) (isRef : e.type = .ruleRef) :
    symbolsOf (e :: rest) = .nonterminal e.value :: symbolsOf rest := by
  simp [symbolsOf, scanSymbols, isClassTail, isRef, flushTail]

structure ExpandsRef (rules : Rules) (pos : Pos) (below child : Stack) : Prop where
  isRef : (elementAt rules pos).type = .ruleRef
  child : ∃ rule, rules[(elementAt rules pos).value]? = some rule ∧
    ∃ s ∈ alternateStarts rule, child = pushUnlessEnd rules ⟨(elementAt rules pos).value, s⟩
      (pushUnlessEnd rules (pos.advance 1) below)

theorem expands_iff {below child : Stack} :
    Expands (visitStack rules) (pos :: below) child ↔ ExpandsRef rules pos below child := by
  constructor
  · rintro ⟨children, visit, member⟩
    simp only [visitStack] at visit
    split at visit
    · rename_i isRef
      split at visit
      · rename_i rule found
        cases visit
        obtain ⟨s, starts, same⟩ := mem_map.mp member
        exact ⟨isRef, rule, found, s, starts, same.symm⟩
      · cases visit
    all_goals cases visit
  · rintro ⟨isRef, rule, found, s, starts, same⟩
    refine ⟨expandRef rules pos below (elementAt rules pos).value rule, ?_,
      mem_map.mpr ⟨s, starts, same.symm⟩⟩
    simp [visitStack, isRef, found]

theorem not_expands_nil {child : Stack} : ¬ Expands (visitStack rules) [] child := by
  rintro ⟨children, visit, -⟩
  cases visit

end LlamaCpp.Grammar
