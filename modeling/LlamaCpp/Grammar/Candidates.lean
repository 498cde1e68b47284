import LlamaCpp.Grammar.Language
import LlamaCpp.Lib.Utf8

/-!
# Candidates and their mask

A candidate is a token with the code points that its piece decodes to.  The mask walks
the stacks over the code points of all candidates at once and returns the candidates that
no stack lets through.  `Passes` says how one stack lets one candidate through.
-/

set_option autoImplicit false

namespace LlamaCpp.Grammar

open LlamaCpp.Lib List

/-- `llama_partial_utf8`: the bits so far, and the bytes that are missing; -1 of them after an
invalid sequence. -/
structure PartialUtf8 where
  value : Nat
  nRemain : Int
deriving DecidableEq

/-- The bytes that `c_str` shows before the first zero. -/
def cStr (src : List Byte) : List Byte := src.takeWhile fun byte => decide (byte ≠ 0)

def lookup : List Int := [1, 1, 1, 1, 1, 1, 1, 1, 0, 0, 0, 0, 2, 2, 3, 4]

def appendBits (value : Nat) (byte : Byte) : Nat := (value <<< 6) + (byte &&& 0x3F).toNat

/-- The loop that continues the previous decode; there is no result after a byte that is no
continuation byte. -/
def continueSequence : List Byte → Nat → Int → Option (List Byte × Nat × Int)
  | [], value, nRemain => some ([], value, nRemain)
  | byte :: rest, value, nRemain =>
    if 0 < nRemain then
      if byte >>> 6 ≠ 2 then none
      else continueSequence rest (appendBits value byte) (nRemain - 1)
    else some (byte :: rest, value, nRemain)

/-- The loops over the sequences that follow; these do not look at the upper bits of the
bytes after the first one. -/
def decodeSequences : List Byte → Nat → Int → Option (List Nat × Nat × Int)
  | [], value, nRemain => some ([], value, nRemain)
  | byte :: rest, value, nRemain =>
    if 0 < nRemain then
      let value := appendBits value byte
      (decodeSequences rest value (nRemain - 1)).map fun (codePoints, final) =>
        (if nRemain - 1 = 0 then value :: codePoints else codePoints, final)
    else
      let nRemain := lookup.getD (byte >>> 4).toNat 0 - 1
      if nRemain < 0 then none
      else
        let value := byte.toNat &&& ((1 <<< (7 - nRemain).toNat) - 1)
        (decodeSequences rest value nRemain).map fun (codePoints, final) =>
          (if nRemain = 0 then value :: codePoints else codePoints, final)

def continuedCodePoint (partialStart : PartialUtf8) (value : Nat) (nRemain : Int) : List Nat :=
  if 0 < partialStart.nRemain ∧ nRemain = 0 then [value] else []

/-- `decode_utf8` from a partial sequence; a zero ends the code points. -/
def decodeUtf8 (src : List Byte) (partialStart : PartialUtf8) : List Nat × PartialUtf8 :=
  match continueSequence (cStr src) partialStart.value partialStart.nRemain with
  | none => ([0], ⟨0, -1⟩)
  | some (rest, value, nRemain) =>
    match decodeSequences rest value nRemain with
    | none => ([0], ⟨0, -1⟩)
    | some (codePoints, last, missing) =>
      (continuedCodePoint partialStart value nRemain ++ codePoints ++ [0], ⟨last, missing⟩)

example : decodeUtf8 [0x61, 0xC3, 0xA9, 0xE2] ⟨0, 0⟩ = ([0x61, 0xE9, 0], ⟨2, 2⟩) := by decide

def codePointsOf (src : List Byte) (partialStart : PartialUtf8) : List Nat :=
  (decodeUtf8 src partialStart).1.dropLast

theorem decodeUtf8_ends (src : List Byte) (partialStart : PartialUtf8) :
    (decodeUtf8 src partialStart).1 = codePointsOf src partialStart ++ [0] := by
  unfold codePointsOf decodeUtf8
  split
  · rfl
  · split
    · rfl
    · rw [dropLast_concat]

variable {value : Nat} {nRemain : Int}

theorem decodeSequences_begun {bytes : List Byte} {final : Nat × Int} (begun : 0 < nRemain)
    (decoded : decodeSequences bytes value nRemain = some ([], final)) : final.2 ≠ 0 := by
  induction bytes generalizing value nRemain with
  | nil =>
    simp only [decodeSequences, Option.some.injEq, Prod.mk.injEq, true_and] at decoded
    rw [← decoded]
    exact begun.ne'
  | cons byte rest ih =>
    rw [decodeSequences, if_pos begun, Option.map_eq_some_iff] at decoded
    obtain ⟨⟨codePoints, more⟩, inner, same⟩ := decoded
    by_cases last : nRemain - 1 = 0
    · simp [last] at same
    · simp only [if_neg last, Prod.mk.injEq] at same
      rw [same.1, same.2] at inner
      exact ih (by omega) inner

theorem decodeSequences_first {byte : Byte} {rest : List Byte} {final : Nat × Int}
    (first : nRemain ≤ 0)
    (decoded : decodeSequences (byte :: rest) value nRemain = some ([], final)) : final.2 ≠ 0 := by
  rw [decodeSequences, if_neg (by omega)] at decoded
  simp only at decoded
  split at decoded
  · cases decoded
  · rw [Option.map_eq_some_iff] at decoded
    obtain ⟨⟨codePoints, more⟩, inner, same⟩ := decoded
    by_cases single : lookup.getD (byte >>> 4).toNat 0 - 1 = 0
    · simp only [if_pos single, Prod.mk.injEq] at same
      cases same.1
    · simp only [if_neg single, Prod.mk.injEq] at same
      rw [same.1, same.2] at inner
      exact decodeSequences_begun (by omega) inner

theorem continueSequence_skip (ended : nRemain ≤ 0) (bytes : List Byte) (value : Nat) :
    continueSequence bytes value nRemain = some (bytes, value, nRemain) := by
  cases bytes with
  | nil => rfl
  | cons byte rest => rw [continueSequence, if_neg (by omega)]

theorem continueSequence_begun {bytes rest : List Byte} {final : Nat} {left : Int}
    (begun : 0 < nRemain)
    (continued : continueSequence bytes value nRemain = some (rest, final, left)) :
    left = 0 ∨ left ≠ 0 ∧ rest = [] := by
  induction bytes generalizing value nRemain with
  | nil =>
    simp only [continueSequence, Option.some.injEq, Prod.mk.injEq] at continued
    obtain ⟨noRest, -, same⟩ := continued
    rw [← same, ← noRest]
    exact Or.inr ⟨begun.ne', rfl⟩
  | cons byte more ih =>
    rw [continueSequence, if_pos begun] at continued
    split at continued
    · cases continued
    · by_cases goesOn : 0 < nRemain - 1
      · exact ih goesOn continued
      · rw [continueSequence_skip (by omega)] at continued
        simp only [Option.some.injEq, Prod.mk.injEq] at continued
        exact Or.inl (by omega)

/-- A piece that does not begin with a zero byte decodes to a code point, leaves bytes
missing, or is invalid. -/
theorem decodeUtf8_nonempty {src : List Byte} {partialStart : PartialUtf8}
    (first : src.headD 0 ≠ 0) (noCodePoint : codePointsOf src partialStart = []) :
    (decodeUtf8 src partialStart).2.nRemain ≠ 0 := by
  obtain ⟨byte, more, bytes⟩ : ∃ byte more, cStr src = byte :: more := by
    cases src with
    | nil => exact absurd rfl first
    | cons byte more =>
      refine ⟨byte, _, takeWhile_cons_of_pos ?_⟩
      simpa using first
  unfold codePointsOf at noCodePoint
  unfold decodeUtf8 at noCodePoint ⊢
  split
  · simp
  · rename_i rest value nRemain continued
    rw [continued] at noCodePoint
    simp only at noCodePoint
    split
    · simp
    · rename_i codePoints last missing decoded
      rw [decoded] at noCodePoint
      simp only [dropLast_concat, append_eq_nil_iff] at noCodePoint
      obtain ⟨notContinued, none_⟩ := noCodePoint
      rw [none_] at decoded
      by_cases begun : 0 < partialStart.nRemain
      · rcases continueSequence_begun begun continued with ended | ⟨open_, noRest⟩
        · rw [continuedCodePoint, if_pos ⟨begun, ended⟩] at notContinued
          cases notContinued
        · rw [noRest, decodeSequences, Option.some.injEq, Prod.mk.injEq, Prod.mk.injEq] at decoded
          rw [← decoded.2.2]
          exact open_
      · rw [continueSequence_skip (by omega), bytes] at continued
        simp only [Option.some.injEq, Prod.mk.injEq] at continued
        rw [← continued.1] at decoded
        exact decodeSequences_first (by omega) decoded

/-- The loop of `llama_grammar_match_partial_char`: whether an item of the class meets the
range of code points, and whether that item matches any character. -/
def partialItems (isPositive : Bool) (low high : Nat) : List Element → Bool
  | [] => !isPositive
  | [e] =>
    if e.type = .charAny then true
    else if low ≤ e.value ∧ e.value ≤ high then isPositive
    else !isPositive
  | e :: next :: rest =>
    if next.type = .charRngUpper then
      if e.value ≤ high ∧ low ≤ next.value then isPositive
      else
        match rest with
        | other :: _ =>
          if other.type = .charAlt then partialItems isPositive low high rest
          else !isPositive
        | [] => !isPositive
    else if e.type = .charAny then true
    else if low ≤ e.value ∧ e.value ≤ high then isPositive
    else if next.type = .charAlt then partialItems isPositive low high (next :: rest)
    else !isPositive

def matchPartialChar (rules : Rules) (pos : Pos) (partialUtf8 : PartialUtf8) : Bool :=
  let partialValue := partialUtf8.value
  let nRemain := partialUtf8.nRemain
  -- an invalid sequence, or a 7-bit character over two bytes
  if nRemain < 0 ∨ (nRemain = 1 ∧ partialValue < 2) then false
  else
    let low := partialValue <<< (nRemain.toNat * 6)
    let high := low ||| ((1 <<< (nRemain.toNat * 6)) - 1)
    let low :=
      if low = 0 then
        if nRemain = 2 then 1 <<< 11 else if nRemain = 3 then 1 <<< 16 else low
      else low
    partialItems (isPositiveChar (elementAt rules pos)) low high (elementsAt rules pos)

/-- `llama_grammar_candidate`; the pointer into the code points is an offset. -/
structure Candidate where
  index : Nat
  codePoints : List Nat
  offset : Nat
  partialUtf8 : PartialUtf8
  id : Nat
deriving DecidableEq

namespace Candidate

def codePoint (tok : Candidate) : Nat := tok.codePoints.getD tok.offset 0

def next (tok : Candidate) : Candidate := { tok with offset := tok.offset + 1 }

def back (tok : Candidate) : Candidate := { tok with offset := tok.offset - 1 }

@[simp] theorem back_next (tok : Candidate) : tok.next.back = tok := rfl

end Candidate

def rejectedAtEnd (tok : Candidate) : Bool :=
  decide (tok.codePoint ≠ 0) || decide (tok.partialUtf8.nRemain ≠ 0)

def rejectedAtToken (e : Element) (tok : Candidate) : Bool :=
  if tok.codePoint = 0 then decide (tok.partialUtf8.nRemain ≠ 0) else !matchToken e tok.id

def rejectedAtChar (rules : Rules) (pos : Pos) (tok : Candidate) : Bool :=
  if tok.codePoint = 0 then
    decide (tok.partialUtf8.nRemain ≠ 0) && !matchPartialChar rules pos tok.partialUtf8
  else !(matchChar rules pos tok.codePoint).1

def goesOnAtChar (rules : Rules) (pos : Pos) (tok : Candidate) : Bool :=
  decide (tok.codePoint ≠ 0) && (matchChar rules pos tok.codePoint).1

/-- `llama_grammar_reject_candidates_for_stack`; `rejectNext` is the call on the next stacks. -/
def rejectCandidatesForStack (rules : Rules) (fuel : Nat)
    (rejectNext : Stacks → List Candidate → Outcome (List Candidate)) (stack : Stack)
    (candidates : List Candidate) : Outcome (List Candidate) :=
  match stack with
  | [] => .done (candidates.filter rejectedAtEnd)
  | pos :: below =>
    if isTokenElement (elementAt rules pos) then
      .done (candidates.filter (rejectedAtToken (elementAt rules pos)))
    else if isCharHead (elementAt rules pos) then
      let rejects := candidates.filter (rejectedAtChar rules pos)
      let nextCandidates := (candidates.filter (goesOnAtChar rules pos)).map Candidate.next
      let stackAfter := pushUnlessEnd rules (matchChar rules pos 0).2 below
      (advanceStack rules fuel stackAfter []).bind fun nextStacks =>
        (rejectNext nextStacks nextCandidates).bind fun nextRejects =>
          .done (rejects ++ nextRejects.map Candidate.back)
    else .aborted

def rejectByStacks (rejectForStack : Stack → List Candidate → Outcome (List Candidate)) :
    Stacks → List Candidate → Outcome (List Candidate)
  | [], rejects => .done rejects
  | stack :: rest, rejects =>
    (rejectForStack stack rejects).bind (rejectByStacks rejectForStack rest)

/-- `llama_grammar_reject_candidates`; the depth is that of the recursion. -/
def rejectCandidates (rules : Rules) (fuel : Nat) :
    Nat → Stacks → List Candidate → Outcome (List Candidate)
  | 0, _, _ => .timeout
  | depth + 1, stacks_, candidates =>
    if stacks_ = [] then .aborted
    else if candidates = [] then .done []
    else
      rejectByStacks
        (rejectCandidatesForStack rules fuel (rejectCandidates rules fuel depth)) stacks_
        candidates

inductive Enters (rules : Rules) (chr : Nat) : Stack → Stack → Prop
  | char {pos : Pos} (below : Stack) (isChar : isCharHead (elementAt rules pos) = true)
      (hit : (matchChar rules pos chr).1 = true) :
      Enters rules chr (pos :: below) (pushUnlessEnd rules (matchChar rules pos chr).2 below)

def IsCharTop (rules : Rules) : Stack → Prop
  | [] => False
  | pos :: _ => isCharHead (elementAt rules pos) = true

def TakesToken (rules : Rules) (token : Nat) : Stack → Prop
  | [] => False
  | pos :: _ => isTokenElement (elementAt rules pos) = true ∧
      matchToken (elementAt rules pos) token = true

inductive Passes (rules : Rules) : Stack → Candidate → Prop
  | ended {stack : Stack} {tok : Candidate} (atEnd : tok.codePoint = 0)
      (fits : tok.partialUtf8.nRemain = 0 ∨ IsCharTop rules stack) : Passes rules stack tok
  | token {stack : Stack} {tok : Candidate} (inside : tok.codePoint ≠ 0)
      (takes : TakesToken rules tok.id stack) : Passes rules stack tok
  | char {stack next found : Stack} {tok : Candidate} (inside : tok.codePoint ≠ 0)
      (enters : Enters rules tok.codePoint stack next)
      (path : Reachable (visitStack rules) next found) (leaf : visitStack rules found = .leaf)
      (passes : Passes rules found tok.next) : Passes rules stack tok

theorem matchItems_length (a b : Nat) (elements : List Element) :
    (matchItems a elements).2 = (matchItems b elements).2 := by
  induction elements using matchItems.induct a with
  | case1 => rfl
  | case2 e => rfl
  | case3 e next isRange other rest isAlt ih => simp only [matchItems, if_pos isRange, if_pos isAlt, ih]
  | case4 e next isRange other rest notAlt => simp only [matchItems, if_pos isRange, if_neg notAlt]
  | case5 e next isRange => simp only [matchItems, if_pos isRange]
  | case6 e next rest notRange isAlt ih => simp only [matchItems, if_neg notRange, if_pos isAlt, ih]
  | case7 e next rest notRange notAlt => simp only [matchItems, if_neg notRange, if_neg notAlt]

theorem matchChar_after (rules : Rules) (pos : Pos) (a b : Nat) :
    (matchChar rules pos a).2 = (matchChar rules pos b).2 := by
  simp [matchChar, matchItems_length a b]

/-- The candidates that `reject` keeps back no longer pass by one of the stacks. -/
abbrev KeepsPassing (rules : Rules)
    (reject : Stacks → List Candidate → Outcome (List Candidate)) : Prop :=
  ∀ stacks_ candidates rejects, reject stacks_ candidates = .done rejects →
    ∀ tok ∈ candidates, tok ∉ rejects → ∃ stack ∈ stacks_, Passes rules stack tok

theorem rejectForStack_passes {rules : Rules} {fuel : Nat}
    {rejectNext : Stacks → List Candidate → Outcome (List Candidate)}
    (later : KeepsPassing rules rejectNext) {stack : Stack} {candidates rejects : List Candidate}
    (finished : rejectCandidatesForStack rules fuel rejectNext stack candidates = .done rejects)
    {tok : Candidate} (member : tok ∈ candidates) (kept : tok ∉ rejects) :
    Passes rules stack tok := by
  cases stack with
  | nil =>
    cases finished
    have passed : rejectedAtEnd tok = false := by simpa [member] using kept
    simp only [rejectedAtEnd, Bool.or_eq_false_iff, decide_eq_false_iff_not, not_not] at passed
    exact .ended passed.1 (Or.inl passed.2)
  | cons pos below =>
    rw [rejectCandidatesForStack] at finished
    split at finished
    · rename_i isToken
      cases finished
      have passed : rejectedAtToken (elementAt rules pos) tok = false := by
        simpa [member] using kept
      unfold rejectedAtToken at passed
      split at passed
      · rename_i atEnd
        exact .ended atEnd (Or.inl (by simpa using passed))
      · rename_i inside
        exact .token inside ⟨isToken, by simpa using passed⟩
    · split at finished
      · rename_i isChar
        obtain ⟨nextStacks, advanced, finished⟩ := Outcome.bind_eq_done.mp finished
        obtain ⟨nextRejects, rejected, same⟩ := Outcome.bind_eq_done.mp finished
        cases same
        rw [mem_append, not_or] at kept
        have passed : rejectedAtChar rules pos tok = false := by simpa [member] using kept.1
        unfold rejectedAtChar at passed
        split at passed
        · rename_i atEnd
          exact .ended atEnd (Or.inr isChar)
        · rename_i inside
          have hit : (matchChar rules pos tok.codePoint).1 = true := by simpa using passed
          have goesOn : tok.next ∈ (candidates.filter (goesOnAtChar rules pos)).map
              Candidate.next := by
            apply mem_map_of_mem
            rw [mem_filter]
            exact ⟨member, by simp [goesOnAtChar, inside, hit]⟩
          have nextKept : tok.next ∉ nextRejects := fun impossible =>
            kept.2 (mem_map.mpr ⟨tok.next, impossible, tok.back_next⟩)
          obtain ⟨found, isNext, passes⟩ :=
            later nextStacks _ nextRejects rejected tok.next goesOn nextKept
          obtain before | ⟨leaf, start, inTodo, path⟩ := (mem_explore advanced found).mp isNext
          · cases before
          · rw [mem_singleton, matchChar_after rules pos 0 tok.codePoint] at inTodo
            rw [inTodo] at path
            exact .char inside (.char below isChar hit) path leaf passes
      · cases finished

theorem rejectByStacks_passes {rules : Rules}
    {rejectForStack : Stack → List Candidate → Outcome (List Candidate)}
    (one : ∀ stack candidates rejects, rejectForStack stack candidates = .done rejects →
      ∀ tok ∈ candidates, tok ∉ rejects → Passes rules stack tok) :
    KeepsPassing rules (rejectByStacks rejectForStack) := by
  intro stacks_
  induction stacks_ with
  | nil =>
    intro candidates rejects finished tok member kept
    cases finished
    exact absurd member kept
  | cons stack rest ih =>
    intro candidates rejects finished tok member kept
    obtain ⟨mid, first, later⟩ := Outcome.bind_eq_done.mp finished
    by_cases rejected : tok ∈ mid
    · obtain ⟨other, isOther, passes⟩ := ih mid rejects later tok rejected kept
      exact ⟨other, mem_cons_of_mem _ isOther, passes⟩
    · exact ⟨stack, mem_cons_self .., one stack candidates mid first tok member rejected⟩

theorem rejectCandidates_passes (rules : Rules) (fuel depth : Nat) :
    KeepsPassing rules (rejectCandidates rules fuel depth) := by
  induction depth with
  | zero =>
    intro stacks_ candidates rejects finished
    cases finished
  | succ depth ih =>
    intro stacks_ candidates rejects finished tok member kept
    rw [rejectCandidates] at finished
    split at finished
    · cases finished
    · split at finished
      · rename_i none_
        rw [none_] at member
        cases member
      · exact rejectByStacks_passes (fun stack candidates rejects finished tok member kept =>
          rejectForStack_passes ih finished member kept) stacks_ candidates rejects finished tok
            member kept

end LlamaCpp.Grammar
