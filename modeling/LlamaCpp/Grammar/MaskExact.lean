import LlamaCpp.Grammar.NoAbort
import LlamaCpp.Grammar.ReplayStacks
import Mathlib.Algebra.Order.BigOperators.Group.List
import Mathlib.Algebra.Order.Ring.Nat

/-!
# The mask and one candidate at a time

The mask walks all candidates through the stacks together: a stack hands on what it
rejects, and one code point is read by moving the pointers of the candidates that go on.
Without token elements and without left recursion it rejects exactly the candidates that
are rejected when each is read on its own from all stacks.
-/

set_option autoImplicit false

namespace LlamaCpp.Grammar

open LlamaCpp.Lib List

def fitsPending (rules : Rules) (tok : Candidate) : Stack → Bool
  | [] => decide (tok.partialUtf8.nRemain = 0)
  | pos :: _ => decide (tok.partialUtf8.nRemain = 0) || matchPartialChar rules pos tok.partialUtf8

/-- The code points of a candidate are read from all stacks; without a stack left that fits
its pending bytes it is rejected. -/
def rejectedAlone (rules : Rules) (fuel : Nat) (stacks_ : Stacks) (tok : Candidate) : Outcome Bool :=
  (acceptAll rules fuel tok.codePoints.dropLast stacks_).bind fun left =>
    .done (!left.any (fitsPending rules tok))

namespace Candidate

/-- What `decode_utf8` makes: the pointer is at the first code point, and the only zero is the
one at the end. -/
structure Decoded (tok : Candidate) : Prop where
  atStart : tok.offset = 0
  ended : tok.codePoints.getLast? = some 0
  noZero : 0 ∉ tok.codePoints.dropLast

def chars (tok : Candidate) : List Nat :=
  (tok.codePoints.drop tok.offset).takeWhile fun codePoint => decide (codePoint ≠ 0)

variable {tok : Candidate}

theorem chars_ended (ended : tok.codePoint = 0) : tok.chars = [] := by
  rw [codePoint, getD_eq_getElem?_getD, ← List.head?_drop] at ended
  unfold chars
  cases left : tok.codePoints.drop tok.offset with
  | nil => rfl
  | cons first rest =>
    rw [left, List.head?_cons, Option.getD_some] at ended
    rw [takeWhile_cons_of_neg (by simp [ended])]

theorem chars_inside (inside : tok.codePoint ≠ 0) :
    tok.chars = tok.codePoint :: tok.next.chars := by
  have rest : tok.codePoints.drop (tok.offset + 1) = (tok.codePoints.drop tok.offset).tail := by
    rw [tail_drop]
  rw [codePoint, getD_eq_getElem?_getD, ← List.head?_drop] at inside ⊢
  unfold chars
  rw [next, rest]
  cases left : tok.codePoints.drop tok.offset with
  | nil => exact absurd (by rw [left]; rfl) inside
  | cons first more =>
    rw [left, List.head?_cons] at inside
    rw [takeWhile_cons_of_pos (by simpa using inside)]
    rfl

theorem Decoded.chars (decoded : tok.Decoded) : tok.chars = tok.codePoints.dropLast := by
  have split_ : tok.codePoints = tok.codePoints.dropLast ++ [0] :=
    (dropLast_append_getLast? 0 decoded.ended).symm
  rw [Candidate.chars, decoded.atStart, drop_zero]
  conv_lhs => rw [split_]
  rw [takeWhile_append_of_pos, takeWhile_cons_of_neg (by simp), append_nil]
  intro codePoint member
  rw [decide_eq_true_iff]
  rintro rfl
  exact decoded.noZero member

end Candidate

/-- The code points of a candidate can be read from a stack, and what is left fits its pending
bytes. -/
def Survives (rules : Rules) (tok : Candidate) (stack : Stack) : Prop :=
  ∃ found, ReadsTo rules stack tok.chars found ∧ fitsPending rules tok found = true

variable {tok : Candidate}

theorem survives_ended {rules : Rules} (ended : tok.codePoint = 0) (stack : Stack) :
    Survives rules tok stack ↔ fitsPending rules tok stack = true := by
  rw [Survives, tok.chars_ended ended]
  simp [readsTo_nil_iff]

theorem survives_inside {rules : Rules} (inside : tok.codePoint ≠ 0) (stack : Stack) :
    Survives rules tok stack ↔
      ∃ mid, ReadsChr rules tok.codePoint stack mid ∧ Survives rules tok.next mid := by
  rw [Survives, tok.chars_inside inside]
  simp only [readsTo_cons_iff]
  constructor
  · rintro ⟨found, ⟨mid, first, rest⟩, fits⟩
    exact ⟨mid, first, found, rest, fits⟩
  · rintro ⟨mid, first, found, rest, fits⟩
    exact ⟨found, ⟨mid, first, rest⟩, fits⟩

def RejectsExactly (rules : Rules) (stacks_ : Stacks) (candidates rejects : List Candidate) : Prop :=
  ∃ rejected : Candidate → Bool,
    (∀ tok ∈ candidates, rejected tok = true ↔ ∀ stack ∈ stacks_, ¬ Survives rules tok stack) ∧
      rejects.Perm (candidates.filter rejected)

namespace RejectsExactly

variable {rules : Rules} {stacks_ rest : Stacks} {stack : Stack}
  {candidates mid rejects : List Candidate}

theorem none (rules : Rules) (candidates : List Candidate) :
    RejectsExactly rules [] candidates candidates := by
  refine ⟨fun _ => true, fun tok _ => ?_, ?_⟩
  · simp
  · rw [filter_true]

theorem no_candidates (rules : Rules) (stacks_ : Stacks) : RejectsExactly rules stacks_ [] [] :=
  ⟨fun _ => true, fun _ impossible => absurd impossible not_mem_nil, .refl _⟩

theorem subset (exact_ : RejectsExactly rules stacks_ candidates rejects) :
    ∀ tok ∈ rejects, tok ∈ candidates := by
  obtain ⟨rejected, -, same⟩ := exact_
  intro tok member
  exact (mem_filter.mp (same.mem_iff.mp member)).1

theorem andThen (first : RejectsExactly rules [stack] candidates mid)
    (later : RejectsExactly rules rest mid rejects) :
    RejectsExactly rules (stack :: rest) candidates rejects := by
  obtain ⟨byFirst, firstSpec, firstPerm⟩ := first
  obtain ⟨byLater, laterSpec, laterPerm⟩ := later
  refine ⟨fun tok => byLater tok && byFirst tok, fun tok member => ?_, ?_⟩
  · have here := firstSpec tok member
    simp only [mem_singleton, forall_eq] at here
    rw [Bool.and_eq_true, forall_mem_cons, and_comm, here]
    apply and_congr_right
    intro refused
    apply laterSpec
    rw [firstPerm.mem_iff, mem_filter]
    exact ⟨member, here.mpr refused⟩
  · rw [← filter_filter]
    exact laterPerm.trans (firstPerm.filter byLater)

end RejectsExactly

theorem perm_filter_or {p q r : Candidate → Bool} {candidates : List Candidate}
    (either : ∀ tok ∈ candidates, r tok = (p tok || q tok))
    (apart : ∀ tok ∈ candidates, p tok = true → q tok = false) :
    (candidates.filter p ++ candidates.filter q).Perm (candidates.filter r) := by
  have split_ := filter_append_perm p (candidates.filter r)
  rw [filter_filter, filter_filter] at split_
  have left : candidates.filter (fun tok => p tok && r tok) = candidates.filter p := by
    apply filter_congr
    intro tok member
    rw [either tok member]
    cases p tok <;> rfl
  have right : candidates.filter (fun tok => !p tok && r tok) = candidates.filter q := by
    apply filter_congr
    intro tok member
    rw [either tok member]
    have exclusive := apart tok member
    cases first : p tok with
    | true => rw [exclusive first]; rfl
    | false => rfl
  rw [left, right] at split_
  exact split_

theorem rejectedAtEnd_exact (rules : Rules) (candidates : List Candidate) :
    RejectsExactly rules [[]] candidates (candidates.filter rejectedAtEnd) := by
  refine ⟨rejectedAtEnd, fun tok _ => ?_, .refl _⟩
  simp only [mem_singleton, forall_eq]
  by_cases ended : tok.codePoint = 0
  · rw [survives_ended ended]
    simp [rejectedAtEnd, ended, fitsPending]
  · rw [survives_inside ended]
    have stuck : ¬ ∃ mid, ReadsChr rules tok.codePoint [] mid ∧ Survives rules tok.next mid := by
      rintro ⟨mid, ⟨next, enters, -⟩, -⟩
      cases enters
    simp [rejectedAtEnd, ended, stuck]

theorem survives_char {rules : Rules} {pos : Pos} {below : Stack} {nextStacks : Stacks}
    (isChar : isCharHead (elementAt rules pos) = true)
    (advanced : ∀ found, found ∈ nextStacks ↔ Reachable (visitStack rules) (pushUnlessEnd rules (matchChar rules pos 0).2 below) found ∧ visitStack rules found = .leaf)
    (inside : tok.codePoint ≠ 0) :
    Survives rules tok (pos :: below) ↔ (matchChar rules pos tok.codePoint).1 = true ∧
      ∃ found ∈ nextStacks, Survives rules tok.next found := by
  rw [survives_inside inside]
  constructor
  · rintro ⟨mid, ⟨next, enters, path, leaf⟩, survives⟩
    cases enters with
    | char _ _ hit =>
      rw [matchChar_after rules pos tok.codePoint 0] at path
      exact ⟨hit, mid, (advanced mid).mpr ⟨path, leaf⟩, survives⟩
  · rintro ⟨hit, found, member, survives⟩
    obtain ⟨path, leaf⟩ := (advanced found).mp member
    rw [matchChar_after rules pos 0 tok.codePoint] at path
    exact ⟨found, ⟨_, .char below isChar hit, path, leaf⟩, survives⟩

theorem rejectedAtChar_exact {rules : Rules} {pos : Pos} {below : Stack} {nextStacks : Stacks}
    {candidates nextRejects : List Candidate} (isChar : isCharHead (elementAt rules pos) = true)
    (advanced : ∀ found, found ∈ nextStacks ↔
      Reachable (visitStack rules) (pushUnlessEnd rules (matchChar rules pos 0).2 below) found ∧
        visitStack rules found = .leaf)
    (later : RejectsExactly rules nextStacks
      ((candidates.filter (goesOnAtChar rules pos)).map Candidate.next) nextRejects) :
    RejectsExactly rules [pos :: below] candidates
      (candidates.filter (rejectedAtChar rules pos) ++ nextRejects.map Candidate.back) := by
  obtain ⟨byNext, spec, same⟩ := later
  have nextSpec : ∀ tok ∈ candidates, goesOnAtChar rules pos tok = true →
      (byNext tok.next = true ↔ ∀ found ∈ nextStacks, ¬ Survives rules tok.next found) := by
    intro tok member goesOn
    apply spec
    exact mem_map_of_mem (mem_filter.mpr ⟨member, goesOn⟩)
  have restored : (nextRejects.map Candidate.back).Perm
      (candidates.filter fun tok => byNext tok.next && goesOnAtChar rules pos tok) := by
    have moved := same.map Candidate.back
    rw [filter_map, map_map, filter_filter] at moved
    have back : Candidate.back ∘ Candidate.next = id := rfl
    rw [back, map_id] at moved
    exact moved
  refine ⟨fun tok => rejectedAtChar rules pos tok || (byNext tok.next && goesOnAtChar rules pos tok),
    fun tok member => ?_, ?_⟩
  · simp only [mem_singleton, forall_eq]
    by_cases ended : tok.codePoint = 0
    · rw [survives_ended ended]
      simp [rejectedAtChar, goesOnAtChar, ended, fitsPending]
    · rw [survives_char isChar advanced ended]
      by_cases hit : (matchChar rules pos tok.codePoint).1 = true
      · have goesOn : goesOnAtChar rules pos tok = true := by simp [goesOnAtChar, ended, hit]
        simp [rejectedAtChar, ended, hit, goesOn, nextSpec tok member goesOn]
      · simp [rejectedAtChar, ended, hit]
  · refine (List.Perm.append_left _ restored).trans (perm_filter_or (fun _ _ => rfl) ?_)
    intro tok _ rejected
    by_cases ended : tok.codePoint = 0
    · simp [goesOnAtChar, ended]
    · simp only [rejectedAtChar, if_neg ended, Bool.not_eq_true'] at rejected
      simp [goesOnAtChar, rejected]

def Decides (rules : Rules) (stacks_ : Stacks)
    (reject : Nat → Nat → List Candidate → Outcome (List Candidate))
    (candidates : List Candidate) : Prop :=
  ∃ rejects, Outcome.SettlesDeep (fun fuel depth => reject fuel depth candidates) rejects ∧
    RejectsExactly rules stacks_ candidates rejects

def Shorter (bound : Nat) (candidates : List Candidate) : Prop :=
  ∀ tok ∈ candidates, tok.chars.length < bound

theorem rejectByStacks_decides {rules : Rules} {bound : Nat}
    {rejectForStack : Nat → Nat → Stack → List Candidate → Outcome (List Candidate)}
    (stacks_ : Stacks) (each : ∀ stack ∈ stacks_, ∀ candidates, Shorter bound candidates →
      Decides rules [stack] (fun fuel depth => rejectForStack fuel depth stack) candidates)
    (candidates : List Candidate) (shorter : Shorter bound candidates) :
    Decides rules stacks_ (fun fuel depth => rejectByStacks (rejectForStack fuel depth) stacks_)
      candidates := by
  induction stacks_ generalizing candidates with
  | nil =>
    exact ⟨candidates, (Outcome.settles_done candidates).deep, .none rules candidates⟩
  | cons stack rest ih =>
    obtain ⟨mid, first, firstExact⟩ := each stack (mem_cons_self ..) candidates shorter
    have midShorter : Shorter bound mid := fun tok member =>
      shorter tok (firstExact.subset tok member)
    obtain ⟨rejects, later, laterExact⟩ :=
      ih (fun other member => each other (mem_cons_of_mem _ member)) mid midShorter
    exact ⟨rejects, first.bind later, firstExact.andThen laterExact⟩

section

variable {rules : Rules} {start : Nat} (wellFormed : WellFormed rules)
  (acyclic : ∀ A, ¬ LeftRecursive (tableGrammar rules start) A)

include wellFormed

theorem exists_ready {stack : Stack} (grounded : Grounded rules stack)
    (valid : ValidStack rules stack) :
    ∃ found, Reachable (visitStack rules) stack found ∧ visitStack rules found = .leaf := by
  induction grounded with
  | intro stack _ ih =>
    rcases @ValidStack.leaf_or_ref rules stack valid with leaf | ⟨pos, below, same, isRef, -⟩
    · exact ⟨stack, .refl, leaf⟩
    · have ok := valid pos (by rw [same]; exact mem_cons_self ..)
      have inside := (ok.after_ref isRef).1
      -- the first alternate of the rule
      have child : ExpandsRef rules pos below _ :=
        ⟨isRef, rules[(elementAt rules pos).value], List.getElem?_eq_getElem inside, 0,
          mem_cons_self .., rfl⟩
      have step := expands_iff.mpr child
      rw [← same] at step
      obtain ⟨found, path, leaf⟩ := ih _ step (valid.expands wellFormed step)
      exact ⟨found, .head step path, leaf⟩

include acyclic

theorem advanceStack_finds {stack : Stack} (valid : ValidStack rules stack) :
    ∃ final, Outcome.Settles (fun fuel => advanceStack rules fuel stack []) final ∧ final ≠ [] ∧
      (∀ found ∈ final, Ready rules found) ∧
      ∀ found, found ∈ final ↔
        Reachable (visitStack rules) stack found ∧ visitStack rules found = .leaf := by
  have terminates := terminates_of_finite (finitelyMany_of_acyclic acyclic stack)
  obtain ⟨final, enough, done⟩ := advanceStack_ends wellFormed valid terminates []
  have member : ∀ found, found ∈ final ↔
      Reachable (visitStack rules) stack found ∧ visitStack rules found = .leaf := by
    intro found
    rw [mem_advanceStack (done enough le_rfl) found]
    exact or_iff_right not_mem_nil
  refine ⟨final, ⟨enough, done⟩, ?_, ?_, member⟩
  · obtain ⟨found, path, leaf⟩ := exists_ready wellFormed (grounded_of_acyclic acyclic stack) valid
    exact ne_nil_of_mem ((member found).mpr ⟨path, leaf⟩)
  · intro found isFound
    obtain ⟨path, leaf⟩ := (member found).mp isFound
    exact ⟨valid.reachable wellFormed path, leaf⟩

theorem rejectForStack_decides (tokenFree : TokenFree rules) {bound : Nat}
    (later : ∀ stacks_, stacks_ ≠ [] → (∀ stack ∈ stacks_, Ready rules stack) →
      ∀ candidates, Shorter bound candidates →
        Decides rules stacks_ (fun fuel depth => rejectCandidates rules fuel depth stacks_)
          candidates)
    {stack : Stack} (ready : Ready rules stack) (candidates : List Candidate)
    (shorter : Shorter (bound + 1) candidates) :
    Decides rules [stack] (fun fuel depth =>
      rejectCandidatesForStack rules fuel (rejectCandidates rules fuel depth) stack) candidates := by
  cases stack with
  | nil =>
    exact ⟨_, (Outcome.settles_done _).deep, rejectedAtEnd_exact rules candidates⟩
  | cons pos below =>
    have notToken : ¬ isTokenElement (elementAt rules pos) = true := by
      rw [tokenFree.elementAt pos]
      exact Bool.false_ne_true
    have isChar := ready.charTop notToken
    obtain ⟨nextStacks, advanced, some_, nextReady, member⟩ :=
      advanceStack_finds wellFormed acyclic (ready.valid.afterChar isChar 0)
    have nextShorter : Shorter bound
        ((candidates.filter (goesOnAtChar rules pos)).map Candidate.next) := by
      intro moved isMoved
      obtain ⟨tok, isTok, same⟩ := mem_map.mp isMoved
      obtain ⟨inList, goesOn⟩ := mem_filter.mp isTok
      rw [goesOnAtChar, Bool.and_eq_true, decide_eq_true_iff] at goesOn
      have length := shorter tok inList
      rw [tok.chars_inside goesOn.1, length_cons] at length
      rw [← same]
      omega
    obtain ⟨nextRejects, rejected, exact_⟩ := later nextStacks some_ nextReady _ nextShorter
    refine ⟨_, ?_, rejectedAtChar_exact isChar member exact_⟩
    simp only [rejectCandidatesForStack, if_neg notToken, if_pos isChar]
    exact advanced.deep.bind (rejected.bind (Outcome.settles_done _).deep)

/-- By induction on the code points that are left, one less in every recursion. -/
theorem rejectCandidates_decides (tokenFree : TokenFree rules) (bound : Nat) (stacks_ : Stacks)
    (some_ : stacks_ ≠ []) (ready : ∀ stack ∈ stacks_, Ready rules stack)
    (candidates : List Candidate) (shorter : Shorter bound candidates) :
    Decides rules stacks_ (fun fuel depth => rejectCandidates rules fuel depth stacks_) candidates := by
  by_cases none_ : candidates = []
  · subst none_
    refine ⟨[], (Outcome.settles_done []).deep.succ ?_, .no_candidates rules stacks_⟩
    intro fuel depth
    simp [rejectCandidates, if_neg some_]
  · cases bound with
    | zero =>
      obtain ⟨tok, member⟩ := exists_mem_of_ne_nil candidates none_
      exact absurd (shorter tok member) (Nat.not_lt_zero _)
    | succ bound =>
      have each : ∀ stack ∈ stacks_, ∀ candidates, Shorter (bound + 1) candidates →
          Decides rules [stack] (fun fuel depth =>
            rejectCandidatesForStack rules fuel (rejectCandidates rules fuel depth) stack)
            candidates := by
        intro stack member candidates shorter
        apply rejectForStack_decides wellFormed acyclic tokenFree ?_ (ready stack member)
          candidates shorter
        intro nextStacks nextSome nextReady nextCandidates nextShorter
        exact rejectCandidates_decides tokenFree bound nextStacks nextSome nextReady
          nextCandidates nextShorter
      obtain ⟨rejects, settles, exact_⟩ := rejectByStacks_decides stacks_ each candidates shorter
      refine ⟨rejects, settles.succ ?_, exact_⟩
      intro fuel depth
      simp [rejectCandidates, if_neg some_, if_neg none_]

/-- Reading one candidate from all stacks comes to an end, and finds out whether one of them
lets it through. -/
theorem rejectedAlone_settles {stacks_ : Stacks} (ready : ∀ stack ∈ stacks_, Ready rules stack)
    {tok : Candidate} (decoded : tok.Decoded) :
    ∃ alone, Outcome.Settles (fun fuel => rejectedAlone rules fuel stacks_ tok) alone ∧
      (alone = true ↔ ∀ stack ∈ stacks_, ¬ Survives rules tok stack) := by
  have ends : ∀ stack ∈ stacks_, CharsEnd rules stack tok.chars :=
    fun _ _ _ _ _ _ next _ _ _ => terminates_of_finite (finitelyMany_of_acyclic acyclic next)
  obtain ⟨left, enough, done⟩ := acceptCodePoints_ends wellFormed tok.chars stacks_ ready ends
  have member := mem_acceptCodePoints tok.chars (done enough le_rfl)
  simp only [acceptCodePoints_eq, decoded.chars] at done
  refine ⟨_, Outcome.Settles.bind ⟨enough, done⟩ (Outcome.settles_done _), ?_⟩
  rw [Bool.not_eq_true', any_eq_false]
  constructor
  · rintro unfit stack isStack ⟨found, reads, fits⟩
    exact unfit found ((member found).mpr ⟨stack, isStack, reads⟩) fits
  · intro refused found isLeft fits
    obtain ⟨stack, isStack, reads⟩ := (member found).mp isLeft
    exact refused stack isStack ⟨found, reads, fits⟩

/-- The mask rejects exactly the candidates that are rejected on their own. -/
theorem rejectCandidates_exact (tokenFree : TokenFree rules) {stacks_ : Stacks}
    (some_ : stacks_ ≠ []) (ready : ∀ stack ∈ stacks_, Ready rules stack)
    {candidates : List Candidate} (decoded : ∀ tok ∈ candidates, tok.Decoded) :
    ∃ rejected : Candidate → Bool,
      (∀ tok ∈ candidates,
        Outcome.Settles (fun fuel => rejectedAlone rules fuel stacks_ tok) (rejected tok)) ∧
      ∃ rejects, Outcome.SettlesDeep
          (fun fuel depth => rejectCandidates rules fuel depth stacks_ candidates) rejects ∧
        rejects.Perm (candidates.filter rejected) := by
  obtain ⟨bound, shorter⟩ : ∃ bound, Shorter bound candidates := by
    refine ⟨(candidates.map fun tok => tok.chars.length).sum + 1, fun tok member => ?_⟩
    have le := single_le_sum (fun _ _ => Nat.zero_le _) _
      (mem_map_of_mem (f := fun tok : Candidate => tok.chars.length) member)
    omega
  obtain ⟨rejects, settles, rejected, spec, same⟩ :=
    rejectCandidates_decides wellFormed acyclic tokenFree bound stacks_ some_ ready candidates shorter
  refine ⟨rejected, fun tok member => ?_, rejects, settles, same⟩
  obtain ⟨alone, reads, aloneSpec⟩ := rejectedAlone_settles wellFormed acyclic ready (decoded tok member)
  have agree : alone = rejected tok := by
    rw [Bool.eq_iff_iff, aloneSpec, spec tok member]
  exact agree ▸ reads

end

def letterA : Candidate := ⟨0, [97, 0], 0, ⟨0, 0⟩, 5⟩

theorem letterA_decoded : letterA.Decoded := ⟨rfl, rfl, by decide⟩

theorem repeatTable_ready :
    ∀ stack ∈ [[⟨0, 0⟩], []], Ready (copyRules repeatTable) stack := by
  have accepted : initImpl repeatTable 0 3 = .done (some [[⟨0, 0⟩], []]) := by decide
  obtain ⟨inside, rests⟩ := initImpl_rests repeatTable_wellFormed accepted
  exact fun stack member => (rests stack member).ready repeatTable_wellFormed inside

theorem rejectCandidates_exact_at_repeatTable :
    ∃ rejected : Candidate → Bool,
      (∀ tok ∈ [letterA], Outcome.Settles
        (fun fuel => rejectedAlone (copyRules repeatTable) fuel [[⟨0, 0⟩], []] tok) (rejected tok)) ∧
      ∃ rejects, Outcome.SettlesDeep (fun fuel depth =>
          rejectCandidates (copyRules repeatTable) fuel depth [[⟨0, 0⟩], []] [letterA]) rejects ∧
        rejects.Perm ([letterA].filter rejected) :=
  rejectCandidates_exact repeatTable_wellFormed repeatTable_acyclic (by decide) (by decide)
    repeatTable_ready
    (fun tok member => by rw [mem_singleton.mp member]; exact letterA_decoded)

/-- `root ::= "a" x` and `x ::= x`. -/
def loopTable : Rules :=
  [[⟨.char, 97⟩, ⟨.ruleRef, 1⟩, ⟨.end, 0⟩], [⟨.ruleRef, 1⟩, ⟨.end, 0⟩]]

/-- Behind the letter no stack comes to rest, and the mask aborts where the candidate on its
own is rejected; the check of the table reports its left recursion. -/
theorem loopTable_aborts :
    TokenFree loopTable ∧ WellFormed loopTable ∧ visitStack loopTable [⟨0, 0⟩] = .leaf ∧
      letterA.Decoded ∧
      Outcome.Settles (fun fuel => rejectedAlone loopTable fuel [[⟨0, 0⟩]] letterA) true ∧
      (∀ fuel depth, rejectCandidates loopTable (fuel + 4) (depth + 2) [[⟨0, 0⟩]] [letterA] =
        .aborted) ∧
      reportsLeftRecursion loopTable 3 = .done true := by
  refine ⟨by decide, ?_, rfl, letterA_decoded, ⟨4, fun fuel enough => ?_⟩, fun fuel depth => rfl,
    by decide⟩
  · have known : ∀ rule ∈ loopTable, ∀ alternate ∈ splitAlternates rule,
        ∀ symbol ∈ symbolsOf alternate,
          symbol = .terminal [⟨.char, 97⟩] ∨ symbol = .nonterminal 1 := by decide
    refine ⟨fun rule member alternate isAlternate symbol isSymbol => ?_⟩
    rcases known rule member alternate isAlternate symbol isSymbol with same | same
    · rw [same]
      exact Or.inl ⟨rfl, rfl⟩
    · rw [same]
      exact Nat.one_lt_two
  · obtain ⟨more, rfl⟩ : ∃ more, fuel = more + 4 := ⟨fuel - 4, by omega⟩
    rfl

end LlamaCpp.Grammar
