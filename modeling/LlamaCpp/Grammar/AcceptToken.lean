import LlamaCpp.Grammar.Accept
import LlamaCpp.Grammar.Candidates
import LlamaCpp.Lib.Run

/-!
# Accepting a token

A token is taken by the stacks that rest at a token element matching it, and by the
stacks that read the code points of its piece to the end.  `Takes` says which stack comes
from which, and the function collects exactly these.  Every stack of a run rests.
-/

set_option autoImplicit false

namespace LlamaCpp.Grammar

open LlamaCpp.Lib List

/-- The fields of `llama_grammar` that a token changes. -/
structure GrammarState where
  grammarStacks : Stacks
  partialUtf8 : PartialUtf8
deriving DecidableEq

/-- How `llama_grammar_accept_token` ends; the state is written before it throws. -/
inductive AcceptResult
  | returned (state : GrammarState)
  | threw (state : GrammarState) (message : List Byte)
deriving DecidableEq

def acceptCodePoints (rules : Rules) (fuel : Nat) : List Nat → Stacks → Outcome Stacks
  | [], current => .done current
  | chr :: chars, current =>
    (accept rules fuel chr current).bind fun next =>
      if next = [] then .done [] else acceptCodePoints rules fuel chars next

def addStacks : Stacks → Stacks → Stacks
  | [], stacksNew => stacksNew
  | stack :: rest, stacksNew =>
    addStacks rest (if stack ∈ stacksNew then stacksNew else stacksNew ++ [stack])

/-- The body of the loop of `llama_grammar_accept_token` over the stacks. -/
def acceptTokenStack (rules : Rules) (fuel token : Nat) (codePoints : List Nat) (stack : Stack)
    (stacksNew : Stacks) : Outcome Stacks :=
  match stack with
  | [] => .done stacksNew
  | pos :: below =>
    if isTokenElement (elementAt rules pos) then
      if matchToken (elementAt rules pos) token then
        advanceStack rules fuel (pushUnlessEnd rules (pos.advance 1) below) stacksNew
      else .done stacksNew
    else
      (acceptCodePoints rules fuel codePoints [pos :: below]).bind fun survivors =>
        .done (addStacks survivors stacksNew)

def acceptTokenStacks (rules : Rules) (fuel token : Nat) (codePoints : List Nat) :
    Stacks → Stacks → Outcome Stacks
  | [], stacksNew => .done stacksNew
  | stack :: rest, stacksNew =>
    (acceptTokenStack rules fuel token codePoints stack stacksNew).bind
      (acceptTokenStacks rules fuel token codePoints rest)

def utf8Bytes (text : String) : List Byte := text.toUTF8.data.toList

def emptyStackMessage (token : Nat) (piece : List Byte) : List Byte :=
  utf8Bytes "Unexpected empty grammar stack after accepting piece: " ++ piece ++
    utf8Bytes (" (" ++ toString token ++ ")")

def acceptToken (rules : Rules) (fuel token : Nat) (piece : List Byte) (grammar : GrammarState) :
    Outcome AcceptResult :=
  (acceptTokenStacks rules fuel token (codePointsOf piece grammar.partialUtf8)
      grammar.grammarStacks []).bind fun stacksNew =>
    let state := ⟨stacksNew, (decodeUtf8 piece grammar.partialUtf8).2⟩
    .done (if stacksNew = [] then .threw state (emptyStackMessage token piece) else .returned state)

def ReadsChr (rules : Rules) (chr : Nat) (stack found : Stack) : Prop :=
  ∃ next, Enters rules chr stack next ∧ Reachable (visitStack rules) next found ∧
    visitStack rules found = .leaf

inductive ReadsTo (rules : Rules) : Stack → List Nat → Stack → Prop
  | refl (stack : Stack) : ReadsTo rules stack [] stack
  | step {stack mid found : Stack} {chr : Nat} {chars : List Nat}
      (first : ReadsChr rules chr stack mid) (rest : ReadsTo rules mid chars found) :
      ReadsTo rules stack (chr :: chars) found

inductive Takes (rules : Rules) (token : Nat) (codePoints : List Nat) : Stack → Stack → Prop
  | token {pos : Pos} {below found : Stack}
      (isToken : isTokenElement (elementAt rules pos) = true)
      (hit : matchToken (elementAt rules pos) token = true)
      (path : Reachable (visitStack rules) (pushUnlessEnd rules (pos.advance 1) below) found)
      (leaf : visitStack rules found = .leaf) : Takes rules token codePoints (pos :: below) found
  | chars {stack found : Stack} (isChar : IsCharTop rules stack)
      (reads : ReadsTo rules stack codePoints found) : Takes rules token codePoints stack found

variable {stack found : Stack} {chr : Nat} {chars : List Nat} {fuel : Nat} {out final : Stacks}

theorem readsTo_nil_iff {rules : Rules} : ReadsTo rules stack [] found ↔ found = stack := by
  constructor
  · intro reads
    cases reads
    rfl
  · intro same
    rw [same]
    exact .refl stack

theorem readsTo_cons_iff {rules : Rules} : ReadsTo rules stack (chr :: chars) found ↔
      ∃ mid, ReadsChr rules chr stack mid ∧ ReadsTo rules mid chars found := by
  constructor
  · intro reads
    cases reads with
    | step first rest => exact ⟨_, first, rest⟩
  · rintro ⟨mid, first, rest⟩
    exact .step first rest

theorem not_charHead_of_token {e : Element} (isToken : isTokenElement e = true) :
    isCharHead e = false := by
  cases kind : e.type <;> simp_all [isTokenElement, isCharHead]

theorem Resting.charTop {rules : Rules} {start : Nat} {pos : Pos} {below : Stack}
    (rests : Resting rules start (pos :: below))
    (notToken : ¬ isTokenElement (elementAt rules pos) = true) :
    isCharHead (elementAt rules pos) = true := by
  have terminal := visit_leaf_iff.mp rests.leaf
  rw [isTerminalElement, Bool.or_eq_true] at terminal
  exact terminal.resolve_right notToken

theorem mem_advanceStack {rules : Rules}
    (finished : advanceStack rules fuel stack out = .done final) (found : Stack) :
    found ∈ final ↔ found ∈ out ∨
      Reachable (visitStack rules) stack found ∧ visitStack rules found = .leaf := by
  rw [mem_explore finished found]
  simp [and_comm]

theorem mem_acceptChr {rules : Rules}
    (finished : acceptChr rules fuel chr stack out = .done final) (found : Stack) :
    found ∈ final ↔ found ∈ out ∨ ReadsChr rules chr stack found := by
  -- without a class that matches nothing is read
  have silent : (∀ next, ¬ Enters rules chr stack next) → final = out →
      (found ∈ final ↔ found ∈ out ∨ ReadsChr rules chr stack found) := by
    intro none_ same
    rw [same]
    exact (or_iff_left fun ⟨next, enters, _⟩ => none_ next enters).symm
  cases stack with
  | nil =>
    cases finished
    exact silent (fun next enters => by cases enters) rfl
  | cons pos below =>
    rw [acceptChr] at finished
    split at finished
    · rename_i isToken
      cases finished
      refine silent (fun next enters => ?_) rfl
      cases enters with
      | char _ isChar _ =>
        rw [not_charHead_of_token isToken] at isChar
        cases isChar
    · split at finished
      · rename_i isChar
        simp only at finished
        split at finished
        · rename_i hit
          rw [mem_advanceStack finished found]
          apply or_congr_right
          constructor
          · exact fun both => ⟨_, .char below isChar hit, both⟩
          · rintro ⟨next, enters, both⟩
            cases enters
            exact both
        · rename_i miss
          cases finished
          refine silent (fun next enters => ?_) rfl
          cases enters with
          | char _ _ hit => exact miss hit
      · cases finished

theorem mem_acceptStacks {rules : Rules} (current : Stacks)
    (finished : acceptStacks rules fuel chr current out = .done final) (found : Stack) :
    found ∈ final ↔ found ∈ out ∨ ∃ stack ∈ current, ReadsChr rules chr stack found := by
  induction current generalizing out with
  | nil =>
    cases finished
    simp
  | cons stack rest ih =>
    obtain ⟨mid, first, later⟩ := Outcome.bind_eq_done.mp finished
    rw [ih later, mem_acceptChr first, exists_mem_cons_iff, or_assoc]

theorem mem_acceptCodePoints {rules : Rules} (chars : List Nat) {current : Stacks}
    (finished : acceptCodePoints rules fuel chars current = .done final) (found : Stack) :
    found ∈ final ↔ ∃ stack ∈ current, ReadsTo rules stack chars found := by
  induction chars generalizing current with
  | nil =>
    cases finished
    simp [readsTo_nil_iff]
  | cons chr chars ih =>
    obtain ⟨next, first, later⟩ := Outcome.bind_eq_done.mp finished
    have readNext : ∀ mid, mid ∈ next ↔ ∃ stack ∈ current, ReadsChr rules chr stack mid := by
      intro mid
      rw [mem_acceptStacks current first mid]
      exact or_iff_right not_mem_nil
    have rest : found ∈ final ↔ ∃ mid ∈ next, ReadsTo rules mid chars found := by
      split at later
      · rename_i none_
        cases later
        rw [none_]
        simp
      · exact ih later
    rw [rest]
    simp only [readsTo_cons_iff, readNext]
    constructor
    · rintro ⟨mid, ⟨stack, member, first⟩, rest⟩
      exact ⟨stack, member, mid, first, rest⟩
    · rintro ⟨stack, member, mid, first, rest⟩
      exact ⟨mid, ⟨stack, member, first⟩, rest⟩

theorem mem_addStacks (survivors stacksNew : Stacks) (found : Stack) :
    found ∈ addStacks survivors stacksNew ↔ found ∈ stacksNew ∨ found ∈ survivors := by
  induction survivors generalizing stacksNew with
  | nil => simp [addStacks]
  | cons stack rest ih =>
    rw [addStacks, ih, mem_cons]
    split
    · rename_i old
      constructor
      · exact fun cases_ => cases_.imp_right Or.inr
      · rintro (before | here | later)
        · exact Or.inl before
        · exact Or.inl (here ▸ old)
        · exact Or.inr later
    · rw [mem_append, mem_singleton, or_assoc]

theorem mem_acceptTokenStack {rules : Rules} {start token : Nat} {codePoints : List Nat}
    (rests : Resting rules start stack)
    (finished : acceptTokenStack rules fuel token codePoints stack out = .done final)
    (found : Stack) : found ∈ final ↔ found ∈ out ∨ Takes rules token codePoints stack found := by
  cases stack with
  | nil =>
    cases finished
    refine (or_iff_left fun takes => ?_).symm
    cases takes with
    | chars isChar _ => exact isChar
  | cons pos below =>
    rw [acceptTokenStack] at finished
    split at finished
    · rename_i isToken
      have notChar : ¬ IsCharTop rules (pos :: below) := by
        rw [IsCharTop, not_charHead_of_token isToken]
        exact Bool.false_ne_true
      split at finished
      · rename_i hit
        rw [mem_advanceStack finished found]
        apply or_congr_right
        constructor
        · exact fun both => .token isToken hit both.1 both.2
        · intro takes
          cases takes with
          | token _ _ path leaf => exact ⟨path, leaf⟩
          | chars isChar _ => exact absurd isChar notChar
      · rename_i miss
        cases finished
        refine (or_iff_left fun takes => ?_).symm
        cases takes with
        | token _ hit _ _ => exact miss hit
        | chars isChar _ => exact notChar isChar
    · rename_i notToken
      obtain ⟨survivors, read, same⟩ := Outcome.bind_eq_done.mp finished
      cases same
      rw [mem_addStacks, mem_acceptCodePoints codePoints read found]
      simp only [mem_singleton, exists_eq_left]
      apply or_congr_right
      constructor
      · exact fun reads => .chars (rests.charTop notToken) reads
      · intro takes
        cases takes with
        | token isToken _ _ _ => exact absurd isToken notToken
        | chars _ reads => exact reads

theorem mem_acceptTokenStacks {rules : Rules} {start token : Nat} {codePoints : List Nat}
    (current : Stacks) (rests : ∀ stack ∈ current, Resting rules start stack)
    (finished : acceptTokenStacks rules fuel token codePoints current out = .done final)
    (found : Stack) :
    found ∈ final ↔ found ∈ out ∨ ∃ stack ∈ current, Takes rules token codePoints stack found := by
  induction current generalizing out with
  | nil =>
    cases finished
    simp
  | cons stack rest ih =>
    obtain ⟨mid, first, later⟩ := Outcome.bind_eq_done.mp finished
    have restRests : ∀ other ∈ rest, Resting rules start other := fun other member =>
      rests other (mem_cons_of_mem _ member)
    rw [ih restRests later, mem_acceptTokenStack (rests stack (mem_cons_self ..)) first,
      exists_mem_cons_iff, or_assoc]

section

variable {rules : Rules} {start : Nat}

variable {stack found : Stack}

section

variable (rests : Resting rules start stack)
include rests

theorem Resting.enters {chr : Nat} {next : Stack}
    (enters : Enters rules chr stack next) : Arises rules start next := by
  cases enters with
  | char below isChar hit => exact rests.arises.char isChar chr hit

theorem Resting.readsChr {chr : Nat}
    (reads : ReadsChr rules chr stack found) : Resting rules start found := by
  obtain ⟨next, enters, path, leaf⟩ := reads
  exact ⟨(rests.enters enters).reachable path, leaf⟩

theorem Resting.readsTo {chars : List Nat}
    (reads : ReadsTo rules stack chars found) : Resting rules start found := by
  induction reads with
  | refl => exact rests
  | step first _ ih => exact ih (rests.readsChr first)

theorem Resting.takes {token : Nat} {codePoints : List Nat}
    (takes : Takes rules token codePoints stack found) : Resting rules start found := by
  cases takes with
  | token isToken _ path leaf => exact ⟨(rests.arises.token isToken).reachable path, leaf⟩
  | chars _ reads => exact rests.readsTo reads

end

/-- A call of `llama_grammar_accept_token`, with the fuel that its expansions are given. -/
structure TokenCall where
  token : Nat
  piece : List Byte
  fuel : Nat

def tokenStep (rules : Rules) (grammar : GrammarState) (call : TokenCall) : Option GrammarState :=
  match acceptToken rules call.fuel call.token call.piece grammar with
  | .done (.returned state) => some state
  | _ => none

abbrev RunReaches (rules : Rules) (initial : Stacks) : GrammarState → Prop :=
  Reaches (tokenStep rules) (fun _ _ => True) ⟨initial, ⟨0, 0⟩⟩

def StateRests (rules : Rules) (start : Nat) (grammar : GrammarState) : Prop :=
  ∀ stack ∈ grammar.grammarStacks, Resting rules start stack

theorem StateRests.tokenStep {grammar next : GrammarState} {call : TokenCall}
    (rests : StateRests rules start grammar) (stepped : tokenStep rules grammar call = some next) :
    StateRests rules start next := by
  unfold Grammar.tokenStep at stepped
  split at stepped
  · rename_i state returned
    cases stepped
    obtain ⟨stacksNew, collected, same⟩ := Outcome.bind_eq_done.mp returned
    split at same
    · cases same
    · cases same
      intro found member
      have origin := (mem_acceptTokenStacks grammar.grammarStacks rests collected found).mp member
      obtain ⟨stack, isStack, takes⟩ := origin.resolve_left not_mem_nil
      exact (rests stack isStack).takes takes
  · cases stepped

theorem RunReaches.rests {initial : Stacks} {grammar : GrammarState}
    (initially : ∀ stack ∈ initial, Resting rules start stack)
    (run : RunReaches rules initial grammar) : StateRests rules start grammar := by
  have first : StateRests rules start ⟨initial, ⟨0, 0⟩⟩ := initially
  refine Reaches.invariant (StateRests rules start) first ?_ run
  intro state call next rests _ stepped
  exact rests.tokenStep stepped

end

theorem initImpl_rests {raw : List (List Element)} {start : Nat} {initial : Stacks}
    (wellFormed : WellFormed (copyRules raw))
    (accepted : initImpl raw start fuel = .done (some initial)) : start < (copyRules raw).length ∧
      ∀ stack ∈ initial, Resting (copyRules raw) start stack := by
  obtain ⟨found, -, accepted⟩ := Outcome.bind_eq_done.mp accepted
  split at accepted
  · cases accepted
  · split at accepted
    · rename_i inRaw
      have inside : start < (copyRules raw).length := by
        rw [copyRules, length_map]
        exact inRaw
      obtain ⟨stacks_, advanced, same⟩ := Outcome.bind_eq_done.mp accepted
      cases same
      have collected := advanceStacks_collects wellFormed inside _ (fun _ member => .start member) advanced
      exact ⟨inside, fun stack member => (collected.rests stack member).resolve_left not_mem_nil⟩
    · cases accepted

structure Ready (rules : Rules) (stack : Stack) : Prop where
  valid : ValidStack rules stack
  leaf : visitStack rules stack = .leaf

theorem Resting.ready {rules : Rules} {start : Nat} (wellFormed : WellFormed rules)
    (inside : start < rules.length) (rests : Resting rules start stack) : Ready rules stack :=
  ⟨rests.arises.valid wellFormed inside, rests.leaf⟩

theorem Ready.charTop {rules : Rules} {pos : Pos} {below : Stack}
    (ready : Ready rules (pos :: below)) (notToken : ¬ isTokenElement (elementAt rules pos) = true) :
    isCharHead (elementAt rules pos) = true := by
  have terminal := visit_leaf_iff.mp ready.leaf
  rw [isTerminalElement, Bool.or_eq_true] at terminal
  exact terminal.resolve_right notToken

theorem Ready.enters {rules : Rules} {next : Stack} (ready : Ready rules stack)
    (enters : Enters rules chr stack next) : ValidStack rules next := by
  cases enters with
  | char below isChar _ => exact ready.valid.afterChar isChar chr

theorem ValidStack.reachable {rules : Rules} (wellFormed : WellFormed rules)
    (valid : ValidStack rules stack) (path : Reachable (visitStack rules) stack found) :
    ValidStack rules found := by
  induction path with
  | refl => exact valid
  | tail _ step ih => exact ih.expands wellFormed step

theorem Ready.readsChr {rules : Rules} (wellFormed : WellFormed rules) (ready : Ready rules stack)
    (reads : ReadsChr rules chr stack found) : Ready rules found := by
  obtain ⟨next, enters, path, leaf⟩ := reads
  exact ⟨(ready.enters enters).reachable wellFormed path, leaf⟩

def CharsEnd (rules : Rules) (stack : Stack) (chars : List Nat) : Prop :=
  ∀ front chr back mid next, chars = front ++ chr :: back → ReadsTo rules stack front mid →
    Enters rules chr mid next → Terminates (visitStack rules) next

theorem CharsEnd.head {rules : Rules} {next : Stack} (ends : CharsEnd rules stack (chr :: chars))
    (enters : Enters rules chr stack next) : Terminates (visitStack rules) next :=
  ends [] chr chars stack next rfl (.refl stack) enters

theorem CharsEnd.tail {rules : Rules} {mid : Stack} (ends : CharsEnd rules stack (chr :: chars))
    (first : ReadsChr rules chr stack mid) : CharsEnd rules mid chars := by
  intro front chr' back last next same reads enters
  apply ends (chr :: front) chr' back last next
  · rw [same, cons_append]
  · exact .step first reads
  · exact enters

section

variable {rules : Rules} {start : Nat} (wellFormed : WellFormed rules)

include wellFormed

variable {stack : Stack} {token : Nat}

theorem advanceStack_ends (valid : ValidStack rules stack)
    (terminates : Terminates (visitStack rules) stack) (out : Stacks) :
    ∃ final, Outcome.Settles (fun fuel => advanceStack rules fuel stack out) final :=
  terminates.settles (fun _ path => (valid.reachable wellFormed path).not_fault) out

theorem acceptChr_ends (chr : Nat) (ready : Ready rules stack)
    (ends : ∀ next, Enters rules chr stack next → Terminates (visitStack rules) next)
    (out : Stacks) :
    ∃ final, Outcome.Settles (fun fuel => acceptChr rules fuel chr stack out) final := by
  cases stack with
  | nil => exact ⟨out, Outcome.settles_done out⟩
  | cons pos below =>
    by_cases isToken : isTokenElement (elementAt rules pos) = true
    · simp only [acceptChr, if_pos isToken]
      exact ⟨out, Outcome.settles_done out⟩
    · have isChar := ready.charTop isToken
      by_cases hit : (matchChar rules pos chr).1 = true
      · have enters : Enters rules chr (pos :: below) _ := .char below isChar hit
        simp only [acceptChr, if_neg isToken, if_pos isChar, if_pos hit]
        exact advanceStack_ends wellFormed (ready.enters enters) (ends _ enters) out
      · simp only [acceptChr, if_neg isToken, if_pos isChar, if_neg hit]
        exact ⟨out, Outcome.settles_done out⟩

theorem acceptStacks_ends (chr : Nat) (current out : Stacks)
    (ready : ∀ stack ∈ current, Ready rules stack)
    (ends : ∀ stack ∈ current, ∀ next, Enters rules chr stack next →
      Terminates (visitStack rules) next) :
    ∃ final, Outcome.Settles (fun fuel => acceptStacks rules fuel chr current out) final := by
  induction current generalizing out with
  | nil => exact ⟨out, Outcome.settles_done out⟩
  | cons stack rest ih =>
    obtain ⟨mid, first⟩ := acceptChr_ends wellFormed chr (ready stack (mem_cons_self ..))
      (ends stack (mem_cons_self ..)) out
    obtain ⟨final, later⟩ := ih mid
      (fun other member => ready other (mem_cons_of_mem _ member))
      (fun other member => ends other (mem_cons_of_mem _ member))
    exact ⟨final, first.bind later⟩

theorem acceptCodePoints_ends (chars : List Nat) (current : Stacks)
    (ready : ∀ stack ∈ current, Ready rules stack)
    (ends : ∀ stack ∈ current, CharsEnd rules stack chars) :
    ∃ final, Outcome.Settles (fun fuel => acceptCodePoints rules fuel chars current) final := by
  induction chars generalizing current with
  | nil => exact ⟨current, Outcome.settles_done current⟩
  | cons chr chars ih =>
    obtain ⟨next, first⟩ := acceptStacks_ends wellFormed chr current [] ready
      fun stack member _ enters => (ends stack member).head enters
    obtain ⟨enough, done⟩ := first
    have origin : ∀ mid ∈ next, ∃ stack ∈ current, ReadsChr rules chr stack mid := by
      intro mid member
      have read := (mem_acceptStacks current (done enough le_rfl) mid).mp member
      exact read.resolve_left not_mem_nil
    have nextReady : ∀ mid ∈ next, Ready rules mid := by
      intro mid member
      obtain ⟨stack, isStack, reads⟩ := origin mid member
      exact (ready stack isStack).readsChr wellFormed reads
    have nextEnds : ∀ mid ∈ next, CharsEnd rules mid chars := by
      intro mid member
      obtain ⟨stack, isStack, reads⟩ := origin mid member
      exact (ends stack isStack).tail reads
    by_cases none_ : next = []
    · refine ⟨[], Outcome.Settles.bind ⟨enough, done⟩ ?_⟩
      simp only [if_pos none_]
      exact Outcome.settles_done []
    · obtain ⟨final, later⟩ := ih next nextReady nextEnds
      refine ⟨final, Outcome.Settles.bind ⟨enough, done⟩ ?_⟩
      simp only [if_neg none_]
      exact later

structure StackEnds (rules : Rules) (token : Nat) (codePoints : List Nat) (stack : Stack) : Prop where
  chars : CharsEnd rules stack codePoints
  token : ∀ pos below, stack = pos :: below → TakesToken rules token stack →
    Terminates (visitStack rules) (pushUnlessEnd rules (pos.advance 1) below)

theorem acceptTokenStack_ends {codePoints : List Nat} (ready : Ready rules stack)
    (ends : StackEnds rules token codePoints stack) (out : Stacks) : ∃ final, Outcome.Settles
      (fun fuel => acceptTokenStack rules fuel token codePoints stack out) final := by
  cases stack with
  | nil => exact ⟨out, Outcome.settles_done out⟩
  | cons pos below =>
    by_cases isToken : isTokenElement (elementAt rules pos) = true
    · by_cases hit : matchToken (elementAt rules pos) token = true
      · simp only [acceptTokenStack, if_pos isToken, if_pos hit]
        exact advanceStack_ends wellFormed (ready.valid.afterToken isToken)
          (ends.token pos below rfl ⟨isToken, hit⟩) out
      · simp only [acceptTokenStack, if_pos isToken, if_neg hit]
        exact ⟨out, Outcome.settles_done out⟩
    · simp only [acceptTokenStack, if_neg isToken]
      obtain ⟨survivors, settles⟩ := acceptCodePoints_ends wellFormed codePoints
        [pos :: below]
        (fun stack member => by rw [mem_singleton.mp member]; exact ready)
        (fun stack member => by rw [mem_singleton.mp member]; exact ends.chars)
      exact ⟨_, settles.bind (Outcome.settles_done (addStacks survivors out))⟩

theorem acceptTokenStacks_ends {codePoints : List Nat} (current out : Stacks)
    (ready : ∀ stack ∈ current, Ready rules stack)
    (ends : ∀ stack ∈ current, StackEnds rules token codePoints stack) : ∃ final, Outcome.Settles
      (fun fuel => acceptTokenStacks rules fuel token codePoints current out) final := by
  induction current generalizing out with
  | nil => exact ⟨out, Outcome.settles_done out⟩
  | cons stack rest ih =>
    obtain ⟨mid, first⟩ := acceptTokenStack_ends wellFormed
      (ready stack (mem_cons_self ..)) (ends stack (mem_cons_self ..)) out
    obtain ⟨final, later⟩ := ih mid
      (fun other member => ready other (mem_cons_of_mem _ member))
      (fun other member => ends other (mem_cons_of_mem _ member))
    exact ⟨final, first.bind later⟩

theorem acceptToken_returns (inside : start < rules.length) {grammar : GrammarState}
    (rests : StateRests rules start grammar) {piece : List Byte}
    (ends : ∀ stack ∈ grammar.grammarStacks, StackEnds rules token (codePointsOf piece grammar.partialUtf8) stack) :
    (∃ next, next.grammarStacks ≠ [] ∧ Outcome.Settles
        (fun fuel => acceptToken rules fuel token piece grammar) (.returned next)) ↔
      ∃ stack ∈ grammar.grammarStacks, ∃ found,
        Takes rules token (codePointsOf piece grammar.partialUtf8) stack found := by
  obtain ⟨final, settles⟩ := acceptTokenStacks_ends wellFormed grammar.grammarStacks []
    (fun stack member => (rests stack member).ready wellFormed inside) ends
  obtain ⟨enough, done⟩ := settles
  have member : ∀ found, found ∈ final ↔ ∃ stack ∈ grammar.grammarStacks,
      Takes rules token (codePointsOf piece grammar.partialUtf8) stack found := by
    intro found
    rw [mem_acceptTokenStacks grammar.grammarStacks rests (done enough le_rfl) found]
    exact or_iff_right not_mem_nil
  constructor
  · rintro ⟨next, nonempty, much, returned⟩
    have result := returned (max enough much) (le_max_right ..)
    simp only [acceptToken, done (max enough much) (le_max_left ..), Outcome.bind] at result
    split at result
    · cases result
    · rename_i some_
      obtain ⟨found, isFound⟩ := exists_mem_of_ne_nil final some_
      obtain ⟨stack, isStack, takes⟩ := (member found).mp isFound
      exact ⟨stack, isStack, found, takes⟩
  · rintro ⟨stack, isStack, found, takes⟩
    have some_ : final ≠ [] := ne_nil_of_mem ((member found).mpr ⟨stack, isStack, takes⟩)
    refine ⟨⟨final, (decodeUtf8 piece grammar.partialUtf8).2⟩, some_, enough, fun fuel le => ?_⟩
    simp [acceptToken, done fuel le, if_neg some_]

end

end LlamaCpp.Grammar
