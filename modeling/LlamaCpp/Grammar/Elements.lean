import LlamaCpp.Lib.Worklist

/-!
# Grammar elements and stacks

A rule is the list of its elements up to and including the end element.  A stack holds
positions in the rules, as the source holds pointers to elements; the head of the list
is the top of the stack.
-/

set_option autoImplicit false

namespace LlamaCpp.Grammar

open LlamaCpp.Lib

inductive Gretype
  | end
  | alt
  | ruleRef
  | char
  | charNot
  | charRngUpper
  | charAlt
  | charAny
  | token
  | tokenNot
deriving DecidableEq

structure Element where
  type : Gretype
  value : Nat
deriving DecidableEq

abbrev Rule := List Element

abbrev Rules := List Rule

structure Pos where
  rule : Nat
  index : Nat
deriving DecidableEq

abbrev Stack := List Pos

instance lawfulBEq_stack : LawfulBEq Stack := inferInstance

abbrev Stacks := List Stack

def endElement : Element := ⟨.end, 0⟩

def isEndOfSequence (e : Element) : Bool :=
  match e.type with
  | .end | .alt => true
  | _ => false

variable {e : Element}

theorem isEndOfSequence_iff : isEndOfSequence e = true ↔ e.type = .end ∨ e.type = .alt := by
  cases kind : e.type <;> simp [isEndOfSequence, kind]

theorem inside_of_ne (notEnd : e.type ≠ .end) (notAlt : e.type ≠ .alt) :
    isEndOfSequence e = false := by
  apply Bool.eq_false_iff.mpr
  intro atEnd
  rcases isEndOfSequence_iff.mp atEnd with isEnd | isAlt
  · exact notEnd isEnd
  · exact notAlt isAlt

theorem inside_of_ref (isRef : e.type = .ruleRef) : isEndOfSequence e = false := by
  apply inside_of_ne <;> simp [isRef]

def elementsAt (rules : Rules) (pos : Pos) : List Element := (rules.getD pos.rule []).drop pos.index

def elementAt (rules : Rules) (pos : Pos) : Element := (elementsAt rules pos).headD endElement

def Pos.advance (pos : Pos) (n : Nat) : Pos := ⟨pos.rule, pos.index + n⟩

/-- The loop of `llama_grammar_match_char`: whether an item of the class matches, and how
many elements the class takes up. -/
def matchItems (chr : Nat) : List Element → Bool × Nat
  | [] => (false, 0)
  | [e] => (decide (e.type = .charAny) || decide (e.value = chr), 1)
  | e :: next :: rest =>
    if next.type = .charRngUpper then
      let hit := decide (e.value ≤ chr) && decide (chr ≤ next.value)
      match rest with
      | other :: _ =>
        if other.type = .charAlt then
          let more := matchItems chr rest
          (hit || more.1, more.2 + 2)
        else (hit, 2)
      | [] => (hit, 2)
    else
      let hit := decide (e.type = .charAny) || decide (e.value = chr)
      if next.type = .charAlt then
        let more := matchItems chr (next :: rest)
        (hit || more.1, more.2 + 1)
      else (hit, 1)

def isPositiveChar (e : Element) : Bool := decide (e.type = .char) || decide (e.type = .charAny)

/-- `llama_grammar_match_char`: whether the class at `pos` matches, and the position after it. -/
def matchChar (rules : Rules) (pos : Pos) (chr : Nat) : Bool × Pos :=
  let items := matchItems chr (elementsAt rules pos)
  (items.1 == isPositiveChar (elementAt rules pos), pos.advance items.2)

def matchToken (e : Element) (token : Nat) : Bool :=
  match e.type with
  | .token => decide (e.value = token)
  | .tokenNot => decide (e.value ≠ token)
  | _ => false

def pushUnlessEnd (rules : Rules) (pos : Pos) (stack : Stack) : Stack :=
  if isEndOfSequence (elementAt rules pos) then stack else pos :: stack

/-- Where the alternates after the first one begin; `i` is the index of the first element. -/
def laterAlternates (i : Nat) : List Element → List Nat
  | [] => []
  | e :: rest =>
    if e.type = .alt then (i + 1) :: laterAlternates (i + 1) rest
    else if e.type = .end then []
    else laterAlternates (i + 1) rest

def alternateStarts (rule : Rule) : List Nat := 0 :: laterAlternates 0 rule

def expandRef (rules : Rules) (pos : Pos) (below : Stack) (ruleId : Nat) (rule : Rule) : Stacks :=
  (alternateStarts rule).map fun start =>
    pushUnlessEnd rules ⟨ruleId, start⟩ (pushUnlessEnd rules (pos.advance 1) below)

/-- The body of the loop of `llama_grammar_advance_stack`. -/
def visitStack (rules : Rules) : Stack → Visit Stack
  | [] => .leaf
  | pos :: below =>
    match (elementAt rules pos).type with
    | .ruleRef =>
      match rules[(elementAt rules pos).value]? with
      | some rule => .expand (expandRef rules pos below (elementAt rules pos).value rule)
      | none => .fault
    | .char | .charNot | .charAny | .token | .tokenNot => .leaf
    | _ => .fault

/-- `llama_grammar_advance_stack`; the stacks it finds are added to `newStacks`. -/
def advanceStack (rules : Rules) (fuel : Nat) (stack : Stack) (newStacks : Stacks) :
    Outcome Stacks :=
  explore (visitStack rules) fuel [stack] [] newStacks

def startStacks (rules : Rules) (start : Nat) : Stacks :=
  (alternateStarts (rules.getD start [])).map fun i => pushUnlessEnd rules ⟨start, i⟩ []

def advanceStacks (rules : Rules) (fuel : Nat) : Stacks → Stacks → Outcome Stacks
  | [], newStacks => .done newStacks
  | stack :: rest, newStacks =>
    (advanceStack rules fuel stack newStacks).bind (advanceStacks rules fuel rest)

end LlamaCpp.Grammar
