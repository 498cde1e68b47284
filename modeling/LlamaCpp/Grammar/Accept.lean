import LlamaCpp.Grammar.Language
import LlamaCpp.Grammar.LeftRecursion

/-!
# Accepting code points

The stacks of a grammar state are advanced by one code point at a time.  Every stack
that arises in a run rests at an element that matches input, and together the stacks
accept exactly the words that remain to be read.
-/

set_option autoImplicit false

namespace LlamaCpp.Grammar

open LlamaCpp.Lib List

def acceptChr (rules : Rules) (fuel chr : Nat) (stack : Stack) (newStacks : Stacks) :
    Outcome Stacks :=
  match stack with
  | [] => .done newStacks
  | pos :: below =>
    if isTokenElement (elementAt rules pos) then .done newStacks
    else if isCharHead (elementAt rules pos) then
      let found := matchChar rules pos chr
      if found.1 then advanceStack rules fuel (pushUnlessEnd rules found.2 below) newStacks
      else .done newStacks
    else .aborted

/-- The loop of `llama_grammar_accept` over the stacks. -/
def acceptStacks (rules : Rules) (fuel chr : Nat) : Stacks → Stacks → Outcome Stacks
  | [], newStacks => .done newStacks
  | stack :: rest, newStacks =>
    (acceptChr rules fuel chr stack newStacks).bind (acceptStacks rules fuel chr rest)

def accept (rules : Rules) (fuel chr : Nat) (current : Stacks) : Outcome Stacks :=
  acceptStacks rules fuel chr current []

def acceptAll (rules : Rules) (fuel : Nat) : List Nat → Stacks → Outcome Stacks
  | [], current => .done current
  | chr :: chars, current => (accept rules fuel chr current).bind (acceptAll rules fuel chars)

/-- `llama_grammar_init_impl` on a rule table; without a result there is left recursion. -/
def initImpl (raw : List (List Element)) (start fuel : Nat) : Outcome (Option Stacks) :=
  (reportsLeftRecursion (copyRules raw) fuel).bind fun found =>
    if found then .done none
    else if start < raw.length then
      (advanceStacks (copyRules raw) fuel (startStacks (copyRules raw) start) []).bind
        fun current => .done (some current)
    else .aborted

inductive Arises (rules : Rules) (start : Nat) : Stack → Prop
  | start {stack : Stack} (member : stack ∈ startStacks rules start) : Arises rules start stack
  | expand {stack child : Stack} (arises : Arises rules start stack)
      (step : Expands (visitStack rules) stack child) : Arises rules start child
  | char {pos : Pos} {below : Stack} (arises : Arises rules start (pos :: below))
      (isChar : isCharHead (elementAt rules pos) = true) (chr : Nat)
      (matches_ : (matchChar rules pos chr).1 = true) :
      Arises rules start (pushUnlessEnd rules (matchChar rules pos chr).2 below)
  | token {pos : Pos} {below : Stack} (arises : Arises rules start (pos :: below))
      (isToken : isTokenElement (elementAt rules pos) = true) :
      Arises rules start (pushUnlessEnd rules (pos.advance 1) below)

theorem Arises.reachable {rules : Rules} {start : Nat} {stack other : Stack}
    (arises : Arises rules start stack) (path : Reachable (visitStack rules) stack other) :
    Arises rules start other := by
  induction path with
  | refl => exact arises
  | tail _ step ih => exact ih.expand step

variable {pos : Pos}

theorem token_at {rules : Rules} (ok : PosOk rules pos)
    (isToken : isTokenElement (elementAt rules pos) = true) : symbolsOf (restOf rules pos) =
      .terminal [elementAt rules pos] :: symbolsOf (restOf rules (pos.advance 1)) := by
  have notRef : (elementAt rules pos).type ≠ .ruleRef := by
    intro isRef
    simp [isTokenElement, isRef] at isToken
  obtain ⟨c, after, elements, stops, head, symbols⟩ := class_at ok.inside notRef
  have classOk := ok.symbols (.terminal c) (by rw [symbols]; exact mem_cons_self ..)
  rcases classOk with ⟨isChar, -⟩ | ⟨e, single, -⟩
  · cases kind : (elementAt rules pos).type <;> simp_all [isTokenElement, isCharHead]
  · rw [single, headD_cons] at head
    rw [symbols, single, head]
    rfl

theorem ValidStack.afterChar {rules : Rules} {below : Stack}
    (valid : ValidStack rules (pos :: below)) (isChar : isCharHead (elementAt rules pos) = true)
    (chr : Nat) : ValidStack rules (pushUnlessEnd rules (matchChar rules pos chr).2 below) := by
  have ok := valid pos (mem_cons_self ..)
  have validBelow : ValidStack rules below := fun p member => valid p (mem_cons_of_mem _ member)
  obtain ⟨c, symbols, decides⟩ := matchChar_class ok isChar
  rw [(decides chr).2]
  refine validBelow.push fun symbol member => ok.symbols symbol ?_
  rw [symbols]
  exact mem_cons_of_mem _ member

theorem ValidStack.afterToken {rules : Rules} {below : Stack}
    (valid : ValidStack rules (pos :: below))
    (isToken : isTokenElement (elementAt rules pos) = true) :
    ValidStack rules (pushUnlessEnd rules (pos.advance 1) below) := by
  have ok := valid pos (mem_cons_self ..)
  have validBelow : ValidStack rules below := fun p member => valid p (mem_cons_of_mem _ member)
  refine validBelow.push fun symbol member => ok.symbols symbol ?_
  rw [token_at ok isToken]
  exact mem_cons_of_mem _ member

theorem Arises.valid {rules : Rules} {start : Nat} (wellFormed : WellFormed rules)
    (inside : start < rules.length) {stack : Stack} (arises : Arises rules start stack) :
    ValidStack rules stack := by
  induction arises with
  | start member =>
    obtain ⟨s, starts, same⟩ := mem_map.mp member
    rw [getD_eq_getElem?_getD, List.getElem?_eq_getElem inside] at starts
    have empty : ValidStack rules [] := fun _ impossible => by cases impossible
    rw [← same]
    exact empty.push (symbols_of_start wellFormed (List.getElem?_eq_getElem inside) starts)
  | expand _ step ih => exact ih.expands wellFormed step
  | char _ isChar chr _ ih => exact ih.afterChar isChar chr
  | token _ isToken ih => exact ih.afterToken isToken

/-- What a grammar state holds: stacks that rest at an element that matches input. -/
structure Resting (rules : Rules) (start : Nat) (stack : Stack) : Prop where
  arises : Arises rules start stack
  leaf : visitStack rules stack = .leaf

/-- The stacks added to `out` rest, and they accept these words. -/
structure Collects (rules : Rules) (start : Nat) (words : List Nat → Prop) (out final : Stacks) :
    Prop where
  rests : ∀ stack ∈ final, stack ∈ out ∨ Resting rules start stack
  words : ∀ chars, (∃ stack ∈ final, StackAccepts rules start stack chars) ↔
    (∃ stack ∈ out, StackAccepts rules start stack chars) ∨ words chars

namespace Collects

variable {rules : Rules} {start : Nat} {out mid final : Stacks} {words more : List Nat → Prop}

theorem none (silent : ∀ chars, ¬ words chars) : Collects rules start words out out :=
  ⟨fun _ member => Or.inl member, fun chars => (or_iff_left (silent chars)).symm⟩

theorem congr (same : ∀ chars, words chars ↔ more chars)
    (collects : Collects rules start words out final) : Collects rules start more out final :=
  ⟨collects.rests, fun chars => by rw [collects.words, same]⟩

theorem andThen (first : Collects rules start words out mid)
    (second : Collects rules start more mid final) :
    Collects rules start (fun chars => words chars ∨ more chars) out final := by
  refine ⟨fun stack member => ?_, fun chars => by rw [second.words, first.words, or_assoc]⟩
  rcases second.rests stack member with before | rests
  · exact first.rests stack before
  · exact Or.inr rests

end Collects

section

variable {rules : Rules} {start : Nat} (wellFormed : WellFormed rules) (inside : start < rules.length)

include wellFormed inside

variable {stack : Stack}

theorem advanceStack_collects {fuel : Nat} {out final : Stacks}
    (arises : Arises rules start stack)
    (finished : advanceStack rules fuel stack out = .done final) :
    Collects rules start (StackAccepts rules start stack) out final := by
  have member := mem_explore finished
  have valid := arises.valid wellFormed inside
  constructor
  · intro found isFound
    rcases (member found).mp isFound with before | ⟨leaf, s, inTodo, path⟩
    · exact Or.inl before
    · rw [mem_singleton] at inTodo
      rw [inTodo] at path
      exact Or.inr ⟨arises.reachable path, leaf⟩
  · intro chars
    rw [stackAccepts_iff wellFormed valid]
    constructor
    · rintro ⟨found, isFound, accepts⟩
      rcases (member found).mp isFound with before | ⟨leaf, s, inTodo, path⟩
      · exact Or.inl ⟨found, before, accepts⟩
      · rw [mem_singleton] at inTodo
        rw [inTodo] at path
        exact Or.inr ⟨found, path, leaf, accepts⟩
    · rintro (⟨found, before, accepts⟩ | ⟨found, path, leaf, accepts⟩)
      · exact ⟨found, (member found).mpr (Or.inl before), accepts⟩
      · exact ⟨found, (member found).mpr (Or.inr ⟨leaf, stack, mem_singleton.mpr rfl, path⟩),
          accepts⟩

theorem advanceStack_settles (arises : Arises rules start stack)
    (terminates : Terminates (visitStack rules) stack) (out : Stacks) :
    ∃ final, Outcome.Settles (fun fuel => advanceStack rules fuel stack out) final ∧
      Collects rules start (StackAccepts rules start stack) out final := by
  obtain ⟨final, settles⟩ := terminates.settles
    (fun other path => ((arises.reachable path).valid wellFormed inside).not_fault) out
  obtain ⟨enough, done⟩ := settles
  exact ⟨final, ⟨enough, done⟩, advanceStack_collects wellFormed inside arises (done enough le_rfl)⟩

theorem acceptChr_settles (chr : Nat) (rests : Resting rules start stack)
    (terminates : ∀ other, Arises rules start other → Terminates (visitStack rules) other)
    (out : Stacks) :
    ∃ final, Outcome.Settles (fun fuel => acceptChr rules fuel chr stack out) final ∧
      Collects rules start (fun chars => StackAccepts rules start stack (chr :: chars)) out final := by
  cases stack with
  | nil =>
    refine ⟨out, Outcome.settles_done out, .none fun chars accepts => ?_⟩
    cases accepts_nil_iff.mp accepts
  | cons pos below =>
    have ok := rests.arises.valid wellFormed inside pos (mem_cons_self ..)
    have terminal := visit_leaf_iff.mp rests.leaf
    by_cases isToken : isTokenElement (elementAt rules pos) = true
    · refine ⟨out, ?_, .none fun chars accepts => ?_⟩
      · simp only [acceptChr, if_pos isToken]
        exact Outcome.settles_done out
      · rw [StackAccepts, stackForm_cons, token_at ok isToken] at accepts
        obtain ⟨_, _, _, ⟨isChar, -⟩, -⟩ := accepts_terminal_iff.mp accepts
        cases kind : (elementAt rules pos).type <;> simp_all [isTokenElement, isCharHead]
    · have isChar : isCharHead (elementAt rules pos) = true := by
        rw [isTerminalElement, Bool.or_eq_true] at terminal
        exact terminal.resolve_right isToken
      obtain ⟨c, symbols, decides⟩ := matchChar_class ok isChar
      have next : (matchChar rules pos chr).2 = pos.advance c.length := (decides chr).2
      have words : ∀ chars, StackAccepts rules start (pos :: below) (chr :: chars) ↔
          ClassMatches c chr ∧ StackAccepts rules start
            (pushUnlessEnd rules (pos.advance c.length) below) chars := by
        intro chars
        rw [StackAccepts, StackAccepts, stackForm_cons, symbols, stackForm_push]
        constructor
        · intro accepts
          obtain ⟨_, _, same, fits, rest⟩ := accepts_terminal_iff.mp accepts
          cases same
          exact ⟨fits, rest⟩
        · exact fun both => .terminal both.1 both.2
      by_cases hit : (matchChar rules pos chr).1 = true
      · have fits := (decides chr).1.mp hit
        have arises := rests.arises.char isChar chr hit
        obtain ⟨final, settles, collects⟩ :=
          advanceStack_settles wellFormed inside arises (terminates _ arises) out
        refine ⟨final, ?_, collects.congr fun chars => ?_⟩
        · simpa only [acceptChr, if_neg isToken, if_pos isChar, if_pos hit] using settles
        · rw [words, next]
          exact (and_iff_right fits).symm
      · refine ⟨out, ?_, .none fun chars accepts => ?_⟩
        · simp only [acceptChr, if_neg isToken, if_pos isChar, if_neg hit]
          exact Outcome.settles_done out
        · exact hit ((decides chr).1.mpr ((words chars).mp accepts).1)

theorem acceptStacks_settles (chr : Nat)
    (terminates : ∀ other, Arises rules start other → Terminates (visitStack rules) other)
    (current out : Stacks) (rests : ∀ stack ∈ current, Resting rules start stack) :
    ∃ final, Outcome.Settles (fun fuel => acceptStacks rules fuel chr current out) final ∧
      Collects rules start
        (fun chars => ∃ stack ∈ current, StackAccepts rules start stack (chr :: chars)) out final := by
  induction current generalizing out with
  | nil =>
    exact ⟨out, Outcome.settles_done out, .none fun chars ⟨_, impossible, _⟩ => by cases impossible⟩
  | cons stack rest ih =>
    obtain ⟨mid, first, collected⟩ :=
      acceptChr_settles wellFormed inside chr (rests stack (mem_cons_self ..)) terminates out
    obtain ⟨final, later, more⟩ := ih mid fun s member => rests s (mem_cons_of_mem _ member)
    refine ⟨final, first.bind later, (collected.andThen more).congr fun chars => ?_⟩
    rw [exists_mem_cons_iff]

theorem acceptAll_settles (chars : List Nat)
    (terminates : ∀ other, Arises rules start other → Terminates (visitStack rules) other)
    (current : Stacks) (rests : ∀ stack ∈ current, Resting rules start stack) :
    ∃ final, Outcome.Settles (fun fuel => acceptAll rules fuel chars current) final ∧
      (∀ stack ∈ final, Resting rules start stack) ∧
      ∀ more, (∃ stack ∈ final, StackAccepts rules start stack more) ↔
        ∃ stack ∈ current, StackAccepts rules start stack (chars ++ more) := by
  induction chars generalizing current with
  | nil => exact ⟨current, Outcome.settles_done current, rests, fun more => Iff.rfl⟩
  | cons chr chars ih =>
    obtain ⟨mid, first, collected⟩ :=
      acceptStacks_settles wellFormed inside chr terminates current [] rests
    have midRests : ∀ stack ∈ mid, Resting rules start stack := fun stack member =>
      (collected.rests stack member).resolve_left (not_mem_nil)
    obtain ⟨final, later, finalRests, words⟩ := ih mid midRests
    refine ⟨final, first.bind later, finalRests, fun more => ?_⟩
    rw [words, collected.words]
    simp

theorem Resting.accepts_nil (rests : Resting rules start stack) :
    StackAccepts rules start stack [] ↔ stack = [] := by
  constructor
  · intro accepts
    cases stack with
    | nil => rfl
    | cons pos below =>
      have ok := rests.arises.valid wellFormed inside pos (mem_cons_self ..)
      have notRef : (elementAt rules pos).type ≠ .ruleRef := by
        intro isRef
        have terminal := visit_leaf_iff.mp rests.leaf
        simp [isTerminalElement, isCharHead, isTokenElement, isRef] at terminal
      obtain ⟨c, after, -, -, -, symbols⟩ := class_at ok.inside notRef
      rw [StackAccepts, stackForm_cons, symbols] at accepts
      obtain ⟨_, _, same, -, -⟩ := accepts_terminal_iff.mp accepts
      cases same
  · intro empty
    rw [empty]
    exact .nil

theorem advanceStacks_collects {fuel : Nat} (pending : Stacks) {out final : Stacks}
    (arises : ∀ stack ∈ pending, Arises rules start stack)
    (finished : advanceStacks rules fuel pending out = .done final) :
    Collects rules start (fun chars => ∃ stack ∈ pending, StackAccepts rules start stack chars)
      out final := by
  induction pending generalizing out with
  | nil =>
    cases finished
    exact .none fun chars ⟨_, impossible, _⟩ => by cases impossible
  | cons stack rest ih =>
    obtain ⟨mid, first, later⟩ := Outcome.bind_eq_done.mp finished
    have collected := advanceStack_collects wellFormed inside (arises stack (mem_cons_self ..)) first
    have more := ih (fun s member => arises s (mem_cons_of_mem _ member)) later
    refine (collected.andThen more).congr fun chars => ?_
    rw [exists_mem_cons_iff]

omit wellFormed in
theorem startStacks_accept (chars : List Nat) :
    (∃ stack ∈ startStacks rules start, StackAccepts rules start stack chars) ↔
      chars ∈ matchedLanguage (tableGrammar rules start) ClassMatches := by
  have found : rules[start]? = some (rules.getD start []) := by
    rw [getD_eq_getElem?_getD, List.getElem?_eq_getElem inside, Option.getD_some]
  have alternates := alternates_of_starts found
  rw [mem_matchedLanguage]
  constructor
  · rintro ⟨stack, member, accepts⟩
    obtain ⟨s, starts, same⟩ := mem_map.mp member
    rw [← same, StackAccepts, stackForm_push] at accepts
    refine .rule (r := ⟨start, symbolsOf (restOf rules ⟨start, s⟩)⟩)
      (mem_tableGrammar.mpr ⟨_, found, restOf rules ⟨start, s⟩, ?_, rfl⟩) accepts
    rw [alternates]
    exact mem_map.mpr ⟨s, starts, rfl⟩
  · intro accepts
    obtain ⟨r, member, here, accepts⟩ := accepts_nonterminal_iff.mp accepts
    obtain ⟨rule, foundRule, alternate, isAlternate, output⟩ := mem_tableGrammar.mp member
    change r.input = start at here
    rw [here] at foundRule
    rw [found, Option.some.injEq] at foundRule
    rw [← foundRule, alternates] at isAlternate
    obtain ⟨s, starts, same⟩ := mem_map.mp isAlternate
    refine ⟨_, mem_map.mpr ⟨s, starts, rfl⟩, ?_⟩
    rw [StackAccepts, stackForm_push, same, ← output]
    exact accepts

end

/-- On an accepted table whose stacks come to an end, every sequence of code points is read
to the end, and the empty stack is left exactly when the start rule derives the sequence. -/
theorem accept_iff_derivable (raw : List (List Element)) (start fuel : Nat) (initial : Stacks)
    (wellFormed : WellFormed (copyRules raw))
    (accepted : initImpl raw start fuel = .done (some initial))
    (terminates : ∀ stack, Arises (copyRules raw) start stack →
      Terminates (visitStack (copyRules raw)) stack) (chars : List Nat) :
    ∃ final, Outcome.Settles (fun fuel => acceptAll (copyRules raw) fuel chars initial) final ∧
      ([] ∈ final ↔
        chars ∈ matchedLanguage (tableGrammar (copyRules raw) start) ClassMatches) := by
  obtain ⟨found, -, accepted⟩ := Outcome.bind_eq_done.mp accepted
  split at accepted
  · cases accepted
  · split at accepted
    · rename_i inRaw
      have inside : start < (copyRules raw).length := by
        rw [copyRules, length_map]
        exact inRaw
      obtain ⟨stacks_, advanced, same⟩ := Outcome.bind_eq_done.mp accepted
      cases same
      have collected := advanceStacks_collects wellFormed inside _ (fun _ member => .start member) advanced
      have rests : ∀ stack ∈ initial, Resting (copyRules raw) start stack := fun stack member =>
        (collected.rests stack member).resolve_left (not_mem_nil)
      obtain ⟨final, settles, finalRests, words⟩ :=
        acceptAll_settles wellFormed inside chars terminates initial rests
      refine ⟨final, settles, ?_⟩
      rw [← startStacks_accept inside]
      have initially := collected.words chars
      simp only [not_mem_nil, false_and, exists_false, false_or] at initially
      have remaining := words []
      rw [append_nil, initially] at remaining
      rw [← remaining]
      constructor
      · exact fun member => ⟨[], member, ((finalRests [] member).accepts_nil wellFormed inside).mpr rfl⟩
      · rintro ⟨stack, member, accepts⟩
        rw [← ((finalRests stack member).accepts_nil wellFormed inside).mp accepts]
        exact member
    · cases accepted

/-- `root ::= "a" root | ""`. -/
def repeatTable : List (List Element) :=
  [[⟨.char, 97⟩, ⟨.ruleRef, 0⟩, ⟨.alt, 0⟩, ⟨.end, 0⟩]]

theorem repeatTable_wellFormed : WellFormed (copyRules repeatTable) := by
  have known : ∀ rule ∈ copyRules repeatTable, ∀ alternate ∈ splitAlternates rule,
      ∀ symbol ∈ symbolsOf alternate,
        symbol = .terminal [⟨.char, 97⟩] ∨ symbol = .nonterminal 0 := by decide
  refine ⟨fun rule member alternate isAlternate symbol isSymbol => ?_⟩
  rcases known rule member alternate isAlternate symbol isSymbol with same | same
  · rw [same]
    exact Or.inl ⟨rfl, rfl⟩
  · rw [same]
    exact zero_lt_one

theorem repeatTable_acyclic (A : Nat) :
    ¬ LeftRecursive (tableGrammar (copyRules repeatTable) 0) A := by
  have noCorner : ∀ i j, ¬ LeftCorner (tableGrammar (copyRules repeatTable) 0) i j := by
    rintro i j ⟨r, member, -, p, q, output, empty⟩
    obtain ⟨rule, found, alternate, isAlternate, same⟩ := mem_tableGrammar.mp member
    have known : ∀ rule ∈ copyRules repeatTable, ∀ alternate ∈ splitAlternates rule,
        symbolsOf alternate = [.terminal [⟨.char, 97⟩], .nonterminal 0] ∨
          symbolsOf alternate = [] := by decide
    rcases known rule (mem_of_getElem? found) alternate isAlternate with both | none_
    · have whole := output.symm.trans (same.trans both)
      cases p with
      | nil => cases whole
      | cons x p =>
        obtain ⟨head, -⟩ := List.cons.inj whole
        have accepts : Accepts _ (fun _ (_ : Nat) => True) (x :: p) [] :=
          accepts_iff.mpr ⟨[], empty, .nil⟩
        rw [head] at accepts
        obtain ⟨_, _, impossible, -⟩ := accepts_terminal_iff.mp accepts
        cases impossible
    · have whole := output.symm.trans (same.trans none_)
      cases p <;> cases whole
  exact @acyclic_of_check repeatTable 3 (by decide)
    (fun i j corner => absurd corner (noCorner i j)) A

theorem repeatTable_terminates (stack : Stack) :
    Terminates (visitStack (copyRules repeatTable)) stack :=
  terminates_of_finite (finitelyMany_of_acyclic repeatTable_acyclic stack)

theorem accept_iff_derivable_at_repeatTable :
    ∃ final, Outcome.Settles
        (fun fuel => acceptAll (copyRules repeatTable) fuel [97, 97] [[⟨0, 0⟩], []]) final ∧
      ([] ∈ final ↔
        [97, 97] ∈ matchedLanguage (tableGrammar (copyRules repeatTable) 0) ClassMatches) :=
  accept_iff_derivable repeatTable 0 3 [[⟨0, 0⟩], []] repeatTable_wellFormed (by decide)
    (fun stack _ => repeatTable_terminates stack) [97, 97]

end LlamaCpp.Grammar
