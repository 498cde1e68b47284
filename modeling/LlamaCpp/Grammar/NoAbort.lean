import LlamaCpp.Grammar.AcceptToken

/-!
# Nothing aborts on a well-formed table

On a well-formed table a stack that is valid expands into valid stacks, which never meet the
abort of `llama_grammar_advance_stack`.  A valid stack that rests is at a class or at a token
element, so the assertions of the matching functions hold, and what is left of it behind that
element is valid again.
-/

set_option autoImplicit false

namespace LlamaCpp.Grammar

open LlamaCpp.Lib List

section

variable {rules : Rules} (wellFormed : WellFormed rules)

include wellFormed

variable {stack : Stack}

theorem advanceStack_not_aborted (valid : ValidStack rules stack) (fuel : Nat) (out : Stacks) :
    advanceStack rules fuel stack out ≠ .aborted := by
  apply explore_not_aborted
  intro start inTodo found path
  rw [mem_singleton.mp inTodo] at path
  exact (valid.reachable wellFormed path).not_fault

theorem advanceStack_ready (valid : ValidStack rules stack) {fuel : Nat} {out final : Stacks}
    (advanced : advanceStack rules fuel stack out = .done final)
    (before : ∀ other ∈ out, Ready rules other) : ∀ found ∈ final, Ready rules found := by
  intro found member
  rcases (mem_advanceStack advanced found).mp member with old | ⟨path, leaf⟩
  · exact before found old
  · exact ⟨valid.reachable wellFormed path, leaf⟩

theorem acceptChr_not_aborted (ready : Ready rules stack) (fuel chr : Nat) (out : Stacks) :
    acceptChr rules fuel chr stack out ≠ .aborted := by
  cases stack with
  | nil => exact fun impossible => by cases impossible
  | cons pos below =>
    rw [acceptChr]
    split
    · exact fun impossible => by cases impossible
    · rename_i notToken
      have isChar := ready.charTop notToken
      rw [if_pos isChar]
      simp only
      split
      · exact advanceStack_not_aborted wellFormed (ready.valid.afterChar isChar chr) fuel out
      · exact fun impossible => by cases impossible

theorem acceptStacks_not_aborted (fuel chr : Nat) (current out : Stacks)
    (ready : ∀ stack ∈ current, Ready rules stack) :
    acceptStacks rules fuel chr current out ≠ .aborted := by
  induction current generalizing out with
  | nil => exact fun impossible => by cases impossible
  | cons stack rest ih =>
    apply Outcome.bind_not_aborted
    · exact acceptChr_not_aborted wellFormed (ready stack (mem_cons_self ..)) fuel chr out
    · intro next _
      exact ih next fun other member => ready other (mem_cons_of_mem _ member)

theorem acceptCodePoints_not_aborted (fuel : Nat) (chars : List Nat) (current : Stacks)
    (ready : ∀ stack ∈ current, Ready rules stack) :
    acceptCodePoints rules fuel chars current ≠ .aborted := by
  induction chars generalizing current with
  | nil => exact fun impossible => by cases impossible
  | cons chr chars ih =>
    apply Outcome.bind_not_aborted
    · exact acceptStacks_not_aborted wellFormed fuel chr current [] ready
    · intro next accepted
      split
      · exact fun impossible => by cases impossible
      · apply ih
        intro found member
        have read := (mem_acceptStacks current accepted found).mp member
        obtain ⟨stack, isStack, reads⟩ := read.resolve_left not_mem_nil
        exact (ready stack isStack).readsChr wellFormed reads

theorem acceptTokenStack_not_aborted (ready : Ready rules stack) (fuel token : Nat)
    (codePoints : List Nat) (out : Stacks) :
    acceptTokenStack rules fuel token codePoints stack out ≠ .aborted := by
  cases stack with
  | nil => exact fun impossible => by cases impossible
  | cons pos below =>
    rw [acceptTokenStack]
    split
    · rename_i isToken
      split
      · exact advanceStack_not_aborted wellFormed (ready.valid.afterToken isToken) fuel out
      · exact fun impossible => by cases impossible
    · apply Outcome.bind_not_aborted
      · apply acceptCodePoints_not_aborted wellFormed
        intro other member
        rw [mem_singleton.mp member]
        exact ready
      · exact fun _ _ impossible => by cases impossible

theorem acceptTokenStacks_not_aborted (fuel token : Nat) (codePoints : List Nat)
    (current out : Stacks) (ready : ∀ stack ∈ current, Ready rules stack) :
    acceptTokenStacks rules fuel token codePoints current out ≠ .aborted := by
  induction current generalizing out with
  | nil => exact fun impossible => by cases impossible
  | cons stack rest ih =>
    apply Outcome.bind_not_aborted
    · exact acceptTokenStack_not_aborted wellFormed (ready stack (mem_cons_self ..)) fuel
        token codePoints out
    · intro next _
      exact ih next fun other member => ready other (mem_cons_of_mem _ member)

theorem acceptToken_not_aborted (fuel token : Nat) (piece : List Byte) {grammar : GrammarState}
    (ready : ∀ stack ∈ grammar.grammarStacks, Ready rules stack) :
    acceptToken rules fuel token piece grammar ≠ .aborted := by
  apply Outcome.bind_not_aborted
  · exact acceptTokenStacks_not_aborted wellFormed fuel token _ _ [] ready
  · exact fun _ _ impossible => by cases impossible

end

/-- `llama_grammar_reject_candidates`, with what comes of its own assertion that there are
stacks. -/
def rejectCandidatesOr (rules : Rules) (fuel : Nat) (noStacks : Outcome (List Candidate)) :
    Nat → Stacks → List Candidate → Outcome (List Candidate)
  | 0, _, _ => .timeout
  | depth + 1, stacks_, candidates =>
    if stacks_ = [] then noStacks
    else if candidates = [] then .done []
    else
      rejectByStacks
        (rejectCandidatesForStack rules fuel (rejectCandidatesOr rules fuel noStacks depth))
        stacks_ candidates

section

variable {rules : Rules} (wellFormed : WellFormed rules)

include wellFormed

theorem rejectCandidatesForStack_not_aborted (fuel : Nat)
    {rejectNext : Stacks → List Candidate → Outcome (List Candidate)}
    (next : ∀ stacks_ candidates, (∀ stack ∈ stacks_, Ready rules stack) →
      rejectNext stacks_ candidates ≠ .aborted) {stack : Stack} (ready : Ready rules stack)
    (candidates : List Candidate) :
    rejectCandidatesForStack rules fuel rejectNext stack candidates ≠ .aborted := by
  cases stack with
  | nil => exact fun impossible => by cases impossible
  | cons pos below =>
    rw [rejectCandidatesForStack]
    split
    · exact fun impossible => by cases impossible
    · rename_i notToken
      have isChar := ready.charTop notToken
      have valid := ready.valid.afterChar isChar 0
      rw [if_pos isChar]
      apply Outcome.bind_not_aborted
      · exact advanceStack_not_aborted wellFormed valid fuel []
      · intro nextStacks advanced
        apply Outcome.bind_not_aborted
        · apply next
          exact advanceStack_ready wellFormed valid advanced fun _ impossible =>
            absurd impossible not_mem_nil
        · exact fun _ _ impossible => by cases impossible

omit wellFormed in
theorem rejectByStacks_not_aborted
    {rejectForStack : Stack → List Candidate → Outcome (List Candidate)} (stacks_ : Stacks)
    (each : ∀ stack ∈ stacks_, ∀ candidates, rejectForStack stack candidates ≠ .aborted)
    (candidates : List Candidate) :
    rejectByStacks rejectForStack stacks_ candidates ≠ .aborted := by
  induction stacks_ generalizing candidates with
  | nil => exact fun impossible => by cases impossible
  | cons stack rest ih =>
    apply Outcome.bind_not_aborted
    · exact each stack (mem_cons_self ..) candidates
    · intro rejects _
      exact ih (fun other member => each other (mem_cons_of_mem _ member)) rejects

theorem rejectCandidatesOr_not_aborted (fuel : Nat) {noStacks : Outcome (List Candidate)}
    (harmless : noStacks ≠ .aborted) (depth : Nat) (stacks_ : Stacks) (candidates : List Candidate)
    (ready : ∀ stack ∈ stacks_, Ready rules stack) :
    rejectCandidatesOr rules fuel noStacks depth stacks_ candidates ≠ .aborted := by
  induction depth generalizing stacks_ candidates with
  | zero => exact fun impossible => by cases impossible
  | succ depth ih =>
    rw [rejectCandidatesOr]
    split
    · exact harmless
    · split
      · exact fun impossible => by cases impossible
      · apply rejectByStacks_not_aborted
        intro stack member
        exact rejectCandidatesForStack_not_aborted wellFormed fuel ih (ready stack member)

end

end LlamaCpp.Grammar
