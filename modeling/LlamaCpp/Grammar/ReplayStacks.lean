import LlamaCpp.Grammar.AcceptToken
import LlamaCpp.Lib.Gather

/-!
# Stacks one at a time

The code points of a piece are read by all stacks together when a string is accepted, and
by one stack after another when a token is accepted.  The stacks that are left are the same
and come in the same order, but for the empty stack: a token leaves it behind even when its
piece ends no code point.
-/

set_option autoImplicit false

namespace LlamaCpp.Grammar

open LlamaCpp.Lib List

theorem addStacks_eq (survivors stacksNew : Stacks) :
    addStacks survivors stacksNew = appendNew survivors stacksNew := by
  induction survivors generalizing stacksNew with
  | nil => rfl
  | cons stack rest ih =>
    rw [addStacks, appendNew, ih]
    congr

section

variable {rules : Rules} {fuel : Nat}

theorem advanceStack_out (stack : Stack) (out : Stacks) :
    advanceStack rules fuel stack out =
      (advanceStack rules fuel stack []).bind fun found => .done (appendNew found out) :=
  explore_appendNew fuel [stack] [] [] out

theorem acceptChr_out (chr : Nat) (stack : Stack) (out : Stacks) :
    acceptChr rules fuel chr stack out =
      (acceptChr rules fuel chr stack []).bind fun found => .done (appendNew found out) := by
  cases stack with
  | nil => rfl
  | cons pos below =>
    simp only [acceptChr]
    split
    · rfl
    · split
      · split
        · exact advanceStack_out _ out
        · rfl
      · rfl

def readChr (rules : Rules) (fuel chr : Nat) (stack : Stack) : Outcome Stacks :=
  acceptChr rules fuel chr stack []

theorem acceptStacks_eq (chr : Nat) (current out : Stacks) :
    acceptStacks rules fuel chr current out = gather (readChr rules fuel chr) current out := by
  induction current generalizing out with
  | nil => rfl
  | cons stack rest ih =>
    rw [acceptStacks, acceptChr_out, Outcome.bind_assoc]
    simp only [Outcome.bind_done, ih]
    rfl

theorem accept_eq (chr : Nat) (current : Stacks) :
    accept rules fuel chr current = gather (readChr rules fuel chr) current [] :=
  acceptStacks_eq chr current []

theorem readChr_nodup {chr : Nat} {stack : Stack} {found : Stacks}
    (read : readChr rules fuel chr stack = .done found) : found.Nodup := by
  rw [readChr, acceptChr_out] at read
  obtain ⟨collected, -, same⟩ := Outcome.bind_eq_done.mp read
  cases same
  exact nodup_appendNew collected nodup_nil

variable {current : Stacks}

theorem accept_nodup {chr : Nat} {final : Stacks}
    (accepted : accept rules fuel chr current = .done final) : final.Nodup := by
  rw [accept_eq] at accepted
  exact nodup_gather nodup_nil accepted

theorem acceptAll_nodup (chars : List Nat) {final : Stacks} (distinct : current.Nodup)
    (accepted : acceptAll rules fuel chars current = .done final) : final.Nodup := by
  induction chars generalizing current with
  | nil =>
    cases accepted
    exact distinct
  | cons chr chars ih =>
    obtain ⟨next, first, rest⟩ := Outcome.bind_eq_done.mp accepted
    exact ih (accept_nodup first) rest

theorem acceptAll_append (front back : List Nat) (current : Stacks) :
    acceptAll rules fuel (front ++ back) current =
      (acceptAll rules fuel front current).bind (acceptAll rules fuel back) := by
  induction front generalizing current with
  | nil => rfl
  | cons chr front ih =>
    rw [cons_append, acceptAll, acceptAll, Outcome.bind_assoc]
    congr 1
    funext next
    exact ih next

theorem acceptAll_none (chars : List Nat) : acceptAll rules fuel chars [] = .done [] := by
  induction chars with
  | nil => rfl
  | cons chr chars ih => exact ih

theorem acceptAll_singleton (chr : Nat) (chars : List Nat) (stack : Stack) :
    acceptAll rules fuel (chr :: chars) [stack] =
      (readChr rules fuel chr stack).bind (acceptAll rules fuel chars) := by
  rw [acceptAll, accept_eq, gather]
  cases read : readChr rules fuel chr stack with
  | aborted => rfl
  | timeout => rfl
  | done found =>
    have distinct : ([] ++ found).Nodup := readChr_nodup read
    simp only [Outcome.bind_done, gather]
    rw [appendNew_of_nodup distinct, nil_append]

theorem acceptAll_gather (chars : List Nat) (distinct : current.Nodup) (final : Stacks) :
    acceptAll rules fuel chars current = .done final ↔
      gather (fun stack => acceptAll rules fuel chars [stack]) current [] = .done final := by
  induction chars generalizing current final with
  | nil =>
    have self := gather_self [] distinct
    rw [nil_append] at self
    rw [acceptAll, ← self]
    exact Iff.rfl
  | cons chr chars ih =>
    have together : acceptAll rules fuel (chr :: chars) current = .done final ↔
        (gather (readChr rules fuel chr) current []).bind (fun middle =>
          gather (fun stack => acceptAll rules fuel chars [stack]) middle []) =
            .done final := by
      rw [acceptAll, accept_eq, Outcome.bind_eq_done, Outcome.bind_eq_done]
      apply exists_congr
      intro middle
      apply and_congr_right
      intro read
      exact ih (nodup_gather nodup_nil read) final
    rw [together, gather_bind]
    simp only [gather, Outcome.done.injEq, exists_eq_left']
    apply gather_congr
    intro stack _ found
    rw [acceptAll_singleton, Outcome.bind_eq_done, Outcome.bind_eq_done]
    apply exists_congr
    intro middle
    apply and_congr_right
    intro read
    exact (ih (readChr_nodup read) found).symm

def unfinished (current : Stacks) : Stacks := current.filter fun stack => decide (stack ≠ [])

theorem unfinished_nodup (distinct : current.Nodup) : (unfinished current).Nodup :=
  distinct.filter _

theorem unfinished_unfinished (current : Stacks) :
    unfinished (unfinished current) = unfinished current := by
  rw [unfinished, unfinished]
  simp

theorem gather_readChr_unfinished (chr : Nat) (current out : Stacks) :
    gather (readChr rules fuel chr) (unfinished current) out =
      gather (readChr rules fuel chr) current out := by
  induction current generalizing out with
  | nil => rfl
  | cons stack rest ih =>
    cases stack with
    | nil => exact ih out
    | cons pos below =>
      change gather _ ((pos :: below) :: unfinished rest) out = _
      rw [gather]
      congr 1
      funext found
      exact ih _

theorem acceptAll_unfinished {chars : List Nat} (some_ : chars ≠ []) (current : Stacks) :
    acceptAll rules fuel chars (unfinished current) = acceptAll rules fuel chars current := by
  cases chars with
  | nil => exact absurd rfl some_
  | cons chr chars =>
    rw [acceptAll, acceptAll, accept_eq, accept_eq, gather_readChr_unfinished]

theorem acceptCodePoints_eq (chars : List Nat) (current : Stacks) :
    acceptCodePoints rules fuel chars current = acceptAll rules fuel chars current := by
  induction chars generalizing current with
  | nil => rfl
  | cons chr chars ih =>
    rw [acceptCodePoints]
    congr 1
    funext next
    split
    · rename_i none_
      rw [none_, acceptAll_none]
    · exact ih next

def TokenFree (rules : Rules) : Prop := ∀ rule ∈ rules, ∀ e ∈ rule, isTokenElement e = false

instance (rules : Rules) : Decidable (TokenFree rules) :=
  inferInstanceAs (Decidable (∀ rule ∈ rules, ∀ e ∈ rule, isTokenElement e = false))

theorem TokenFree.elementAt (tokenFree : TokenFree rules) (pos : Pos) :
    isTokenElement (elementAt rules pos) = false := by
  have inside : ∀ e ∈ elementsAt rules pos, isTokenElement e = false := by
    intro e member
    have inRule := mem_of_mem_drop member
    rw [getD_eq_getElem?_getD] at inRule
    cases found : rules[pos.rule]? with
    | none =>
      rw [found] at inRule
      cases inRule
    | some rule =>
      rw [found] at inRule
      exact tokenFree rule (mem_of_getElem? found) e inRule
  unfold Grammar.elementAt
  cases elements : elementsAt rules pos with
  | nil => rfl
  | cons e rest => exact inside e (elements ▸ mem_cons_self ..)

theorem acceptTokenStacks_eq (tokenFree : TokenFree rules) (token : Nat) (codePoints : List Nat)
    (current out : Stacks) :
    acceptTokenStacks rules fuel token codePoints current out =
      gather (fun stack => acceptAll rules fuel codePoints [stack]) (unfinished current) out := by
  induction current generalizing out with
  | nil => rfl
  | cons stack rest ih =>
    cases stack with
    | nil => exact ih out
    | cons pos below =>
      have notToken : ¬ isTokenElement (elementAt rules pos) = true := by
        rw [tokenFree.elementAt pos]
        exact Bool.false_ne_true
      have head : unfinished ((pos :: below) :: rest) = (pos :: below) :: unfinished rest := rfl
      rw [head, acceptTokenStacks, acceptTokenStack, if_neg notToken,
        acceptCodePoints_eq, Outcome.bind_assoc]
      congr 1
      funext survivors
      rw [Outcome.bind_done, addStacks_eq, ih]

theorem acceptTokenStacks_iff (tokenFree : TokenFree rules) (token : Nat) (codePoints : List Nat)
    (distinct : current.Nodup) (final : Stacks) :
    acceptTokenStacks rules fuel token codePoints current [] = .done final ↔
      acceptAll rules fuel codePoints (unfinished current) = .done final := by
  rw [acceptTokenStacks_eq tokenFree, acceptAll_gather codePoints (unfinished_nodup distinct)]

end

theorem advanceStacks_nodup {rules : Rules} {fuel : Nat} (pending : Stacks) {out final : Stacks}
    (distinct : out.Nodup) (advanced : advanceStacks rules fuel pending out = .done final) :
    final.Nodup := by
  induction pending generalizing out with
  | nil =>
    cases advanced
    exact distinct
  | cons stack rest ih =>
    obtain ⟨next, first, later⟩ := Outcome.bind_eq_done.mp advanced
    rw [advanceStack_out] at first
    obtain ⟨found, -, same⟩ := Outcome.bind_eq_done.mp first
    cases same
    exact ih (nodup_appendNew found distinct) later

theorem initImpl_nodup {raw : List (List Element)} {start fuel : Nat} {initial : Stacks}
    (accepted : initImpl raw start fuel = .done (some initial)) : initial.Nodup := by
  obtain ⟨found, -, accepted⟩ := Outcome.bind_eq_done.mp accepted
  split at accepted
  · cases accepted
  · split at accepted
    · obtain ⟨stacks_, advanced, same⟩ := Outcome.bind_eq_done.mp accepted
      cases same
      exact advanceStacks_nodup _ nodup_nil advanced
    · cases accepted

end LlamaCpp.Grammar
