import LlamaCpp.Grammar.Denotation

/-!
# Left recursion

`detectLeftRecursion` follows the references at the left of the alternates depth first.
It steps over a reference only when the rule has an empty alternate of its own, and so
does not see a cycle behind a rule that is empty through other rules.  Without left
recursion a stack can be expanded into finitely many stacks only.
-/

set_option autoImplicit false

namespace LlamaCpp.Grammar

open LlamaCpp.Lib List Option Bool

structure DetectState where
  visited : List Bool
  inProgress : List Bool
  mayBeEmpty : List Bool
deriving DecidableEq

def hasEmptyAlternate : Bool → Rule → Bool
  | _, [] => false
  | atRuleStart, e :: rest =>
    if isEndOfSequence e then atRuleStart || hasEmptyAlternate true rest
    else hasEmptyAlternate false rest

/-- The loop over the elements of a rule; `recurse` is `recurse_into_nonterminal`. -/
def detectElements (detect : DetectState → Nat → Outcome (Bool × DetectState)) :
    Bool → DetectState → List Element → Outcome (Bool × DetectState)
  | _, state, [] => .done (false, state)
  | recurse, state, e :: rest =>
    if e.type = .ruleRef ∧ recurse = true then
      (detect state e.value).bind fun result =>
        if result.1 then .done (true, result.2)
        else detectElements detect (result.2.mayBeEmpty.getD e.value false) result.2 rest
    else if isEndOfSequence e then detectElements detect true state rest
    else detectElements detect false state rest

/-- `llama_grammar_detect_left_recursion`; the fuel bounds the depth of the recursion. -/
def detectLeftRecursion (rules : Rules) :
    Nat → DetectState → Nat → Outcome (Bool × DetectState)
  | 0, _, _ => .timeout
  | fuel + 1, state, ruleIndex =>
    match rules[ruleIndex]? with
    | none => .aborted
    | some rule =>
      if state.inProgress.getD ruleIndex false then .done (true, state)
      else
        let entered : DetectState := { state with
          inProgress := state.inProgress.set ruleIndex true
          mayBeEmpty :=
            if hasEmptyAlternate true rule then state.mayBeEmpty.set ruleIndex true
            else state.mayBeEmpty }
        (detectElements (detectLeftRecursion rules fuel) true entered rule).bind fun result =>
          if result.1 then .done (true, result.2)
          else .done (false, { result.2 with
            inProgress := result.2.inProgress.set ruleIndex false
            visited := result.2.visited.set ruleIndex true })

/-- The loop of `llama_grammar_init_impl` over the rules. -/
def detectRules (rules : Rules) (fuel : Nat) : DetectState → List Nat → Outcome Bool
  | _, [] => .done false
  | state, i :: rest =>
    if state.visited.getD i false then detectRules rules fuel state rest
    else
      (detectLeftRecursion rules fuel state i).bind fun result =>
        if result.1 then .done true else detectRules rules fuel result.2 rest

/-- Whether the check of `llama_grammar_init_impl` reports left recursion. -/
def reportsLeftRecursion (rules : Rules) (fuel : Nat) : Outcome Bool :=
  let clear := List.replicate rules.length false
  detectRules rules fuel ⟨clear, clear, clear⟩ (List.range rules.length)

def DirectlyEmpty (rules : Rules) (i : Nat) : Prop :=
  ∃ rule, rules[i]? = some rule ∧ [] ∈ splitAlternates rule

/-- A reference to `j` after references to directly empty rules only. -/
def LeftReference (rules : Rules) (alternate : List Element) (j : Nat) : Prop :=
  ∃ skipped e rest, alternate = skipped ++ e :: rest ∧ e.type = .ruleRef ∧ e.value = j ∧
    ∀ s ∈ skipped, s.type = .ruleRef ∧ DirectlyEmpty rules s.value

def DetectEdge (rules : Rules) (i j : Nat) : Prop :=
  ∃ rule, rules[i]? = some rule ∧ ∃ alternate ∈ splitAlternates rule,
    LeftReference rules alternate j

/-- Every rule has an end, as the copies that `llama_grammar_init_impl` makes have. -/
def Ended (rules : Rules) : Prop := ∀ rule ∈ rules, ∃ e ∈ rule, e.type = .end

def Meets (rules : Rules) : Prop → List Element → Nat → Prop
  | _, [], _ => False
  | recurse, e :: rest, j =>
    if e.type = .ruleRef then
      recurse ∧ e.value = j ∨ Meets rules (recurse ∧ DirectlyEmpty rules e.value) rest j
    else if isEndOfSequence e then Meets rules True rest j
    else Meets rules False rest j

theorem splitAlternates_cons {e : Element} (rest : List Element)
    (inside : isEndOfSequence e = false) :
    ∃ first others, splitAlternates rest = first :: others ∧
      splitAlternates (e :: rest) = (e :: first) :: others := by
  have split_ := splitAlternates_eq 0 rest
  refine ⟨_, _, split_, ?_⟩
  have notAtEnd : ¬ (e.type = .end ∨ e.type = .alt) := by
    rw [← isEndOfSequence_iff, inside]
    exact false_ne_true
  obtain ⟨notEnd, notAlt⟩ := not_or.mp notAtEnd
  rw [splitAlternates, if_neg notEnd, if_neg notAlt, split_]

theorem hasEmptyAlternate_of_mem (atStart : Bool) (elements : List Element)
    (ended : ∃ e ∈ elements, e.type = .end) :
    (atStart = true → (splitAlternates elements).head? = some [] →
      hasEmptyAlternate atStart elements = true) ∧
    ([] ∈ (splitAlternates elements).tail → hasEmptyAlternate atStart elements = true) := by
  induction elements generalizing atStart with
  | nil =>
    obtain ⟨e, impossible, -⟩ := ended
    cases impossible
  | cons e rest ih =>
    by_cases isEnd : e.type = .end
    · have atEnd : isEndOfSequence e = true := isEndOfSequence_iff.mpr (Or.inl isEnd)
      rw [splitAlternates, if_pos isEnd]
      simp only [hasEmptyAlternate, if_pos atEnd, or_eq_true]
      exact ⟨fun start _ => Or.inl start, fun impossible => by cases impossible⟩
    · have endedRest : ∃ e ∈ rest, e.type = .end := by
        obtain ⟨e', member, here⟩ := ended
        rcases mem_cons.mp member with same | later
        · exact absurd (same ▸ here) isEnd
        · exact ⟨e', later, here⟩
      by_cases isAlt : e.type = .alt
      · have atEnd : isEndOfSequence e = true := isEndOfSequence_iff.mpr (Or.inr isAlt)
        rw [splitAlternates, if_neg isEnd, if_pos isAlt]
        simp only [hasEmptyAlternate, if_pos atEnd, or_eq_true]
        refine ⟨fun start _ => Or.inl start, fun member => Or.inr ?_⟩
        obtain ⟨first, second⟩ := ih true endedRest
        rw [splitAlternates_eq 0 rest] at member first second
        rcases mem_cons.mp member with here | later
        · exact first rfl (by rw [List.head?_cons, here])
        · exact second later
      · have inside : isEndOfSequence e = false := inside_of_ne isEnd isAlt
        obtain ⟨first, others, before, split_⟩ := splitAlternates_cons rest inside
        rw [split_]
        simp only [hasEmptyAlternate, inside, tail_cons]
        refine ⟨fun _ impossible => by simp at impossible, fun member => ?_⟩
        have later := (ih false endedRest).2
        rw [before] at later
        exact later member

theorem directlyEmpty_detected {rules : Rules} (ended : Ended rules) {i : Nat} {rule : Rule}
    (found : rules[i]? = some rule) (empty : DirectlyEmpty rules i) :
    hasEmptyAlternate true rule = true := by
  obtain ⟨rule', found', member⟩ := empty
  rw [found, some.injEq] at found'
  subst rule'
  obtain ⟨first, second⟩ := hasEmptyAlternate_of_mem true rule
    (ended rule (mem_of_getElem? found))
  rw [splitAlternates_eq 0 rule] at member first second
  rcases mem_cons.mp member with here | later
  · exact first rfl (by rw [List.head?_cons, here])
  · exact second later

theorem meets_of_leftReference {rules : Rules} (recurse : Prop) (elements : List Element) {j : Nat} :
    (recurse → ∀ alternate ∈ (splitAlternates elements).head?,
      LeftReference rules alternate j → Meets rules recurse elements j) ∧
    ∀ alternate ∈ (splitAlternates elements).tail,
      LeftReference rules alternate j → Meets rules recurse elements j := by
  induction elements generalizing recurse with
  | nil => simp [splitAlternates, LeftReference]
  | cons e rest ih =>
    by_cases isEnd : e.type = .end
    · simp [splitAlternates, LeftReference, isEnd]
    · by_cases isAlt : e.type = .alt
      · have atEnd : isEndOfSequence e = true := isEndOfSequence_iff.mpr (Or.inr isAlt)
        have notRef : e.type ≠ .ruleRef := by simp [isAlt]
        rw [splitAlternates, if_neg isEnd, if_pos isAlt]
        simp only [Meets, if_neg notRef, if_pos atEnd, List.head?_cons]
        refine ⟨fun _ alternate here reference => ?_, fun alternate member reference => ?_⟩
        · rw [mem_some_iff] at here
          obtain ⟨skipped, e', rest', split_, -⟩ := reference
          rw [← here] at split_
          simp at split_
        · obtain ⟨first, second⟩ := ih True
          rw [splitAlternates_eq 0 rest] at member first second
          rcases mem_cons.mp member with here | later
          · exact first trivial alternate (by rw [here]; rfl) reference
          · exact second alternate later reference
      · have inside : isEndOfSequence e = false := inside_of_ne isEnd isAlt
        obtain ⟨first, others, before, split_⟩ := splitAlternates_cons rest inside
        rw [split_]
        simp only [Meets, inside, List.head?_cons]
        refine ⟨fun on alternate here reference => ?_, fun alternate member reference => ?_⟩
        · rw [mem_some_iff] at here
          subst alternate
          obtain ⟨skipped, e', rest', same, isRef, value, empty⟩ := reference
          cases skipped with
          | nil =>
            rw [nil_append, List.cons.injEq] at same
            rw [← same.1] at isRef value
            rw [if_pos isRef]
            exact Or.inl ⟨on, value⟩
          | cons s skipped =>
            rw [cons_append, List.cons.injEq] at same
            have skip := empty s (mem_cons_self ..)
            rw [← same.1] at skip
            rw [if_pos skip.1]
            right
            have head := (ih (recurse ∧ DirectlyEmpty rules e.value)).1 ⟨on, skip.2⟩ first
            rw [before] at head
            exact head rfl ⟨skipped, e', rest', same.2, isRef, value,
              fun s' member => empty s' (mem_cons_of_mem _ member)⟩
        · split
          · have tail := (ih (recurse ∧ DirectlyEmpty rules e.value)).2 alternate
            rw [before] at tail
            exact Or.inr (tail member reference)
          · have tail := (ih False).2 alternate
            rw [before] at tail
            exact tail member reference

/-- From `i` the steps of the search cannot be followed forever. -/
abbrev Checked (rules : Rules) (i : Nat) : Prop := Acc (fun j i => DetectEdge rules i j) i

structure DetectInv (rules : Rules) (state : DetectState) : Prop where
  size : state.mayBeEmpty.length = rules.length
  visited : ∀ i, state.visited.getD i false = true → Checked rules i

structure Searched (rules : Rules) (before after : DetectState) : Prop where
  inv : DetectInv rules after
  grows : ∀ i, before.mayBeEmpty.getD i false = true → after.mayBeEmpty.getD i false = true

theorem getD_set_of_getD {bits : List Bool} {i j : Nat} (bit : bits.getD j false = true) :
    (bits.set i true).getD j false = true := by
  rw [getD_eq_getElem?_getD, List.getElem?_set]
  split
  · split
    · rfl
    · rename_i here outside
      rw [getD_eq_getElem?_getD, List.getElem?_eq_none (by omega)] at bit
      cases bit
  · exact bit

theorem getD_of_getD_set {bits : List Bool} {i j : Nat}
    (bit : (bits.set i true).getD j false = true) : j = i ∨ bits.getD j false = true := by
  by_cases here : i = j
  · exact Or.inl here.symm
  · right
    rw [getD_eq_getElem?_getD, List.getElem?_set_ne here] at bit
    exact bit

def Detects (rules : Rules) (detect : DetectState → Nat → Outcome (Bool × DetectState)) : Prop :=
  ∀ before i after, DetectInv rules before → detect before i = .done (false, after) →
    Searched rules before after ∧ Checked rules i ∧
      (DirectlyEmpty rules i → after.mayBeEmpty.getD i false = true)

theorem detectElements_searched {rules : Rules}
    {detect : DetectState → Nat → Outcome (Bool × DetectState)} (detects : Detects rules detect)
    (elements : List Element) (recurse : Bool) (before after : DetectState)
    (inv : DetectInv rules before)
    (finished : detectElements detect recurse before elements = .done (false, after)) :
    Searched rules before after ∧ ∀ on : Prop, (on → recurse = true) →
      ∀ j, Meets rules on elements j → Checked rules j := by
  induction elements generalizing recurse before with
  | nil =>
    cases finished
    exact ⟨⟨inv, fun i bit => bit⟩, fun on _ j impossible => impossible.elim⟩
  | cons e rest ih =>
    simp only [detectElements] at finished
    split at finished
    · rename_i searching
      obtain ⟨⟨found, middle⟩, first, later⟩ := Outcome.bind_eq_done.mp finished
      cases found with
      | true => cases later
      | false =>
        obtain ⟨searched, checked, empty⟩ := detects before e.value middle inv first
        obtain ⟨more, meets⟩ := ih _ middle searched.inv later
        refine ⟨⟨more.inv, fun i bit => more.grows i (searched.grows i bit)⟩, ?_⟩
        intro on _ j met
        simp only [Meets, if_pos searching.1] at met
        rcases met with ⟨-, here⟩ | further
        · exact here ▸ checked
        · exact meets _ (fun both => empty both.2) j further
    · rename_i notSearching
      split at finished
      · rename_i atEnd
        have notRef : e.type ≠ .ruleRef := by
          intro isRef
          rw [inside_of_ref isRef] at atEnd
          cases atEnd
        obtain ⟨searched, meets⟩ := ih true before inv finished
        refine ⟨searched, fun on _ j met => ?_⟩
        simp only [Meets, if_neg notRef, if_pos atEnd] at met
        exact meets True (fun _ => rfl) j met
      · obtain ⟨searched, meets⟩ := ih false before inv finished
        refine ⟨searched, fun on switched j met => ?_⟩
        simp only [Meets] at met
        split at met
        · rename_i isRef
          have off : ¬ on := fun isOn => notSearching ⟨isRef, switched isOn⟩
          rcases met with ⟨isOn, -⟩ | further
          · exact absurd isOn off
          · exact meets _ (fun both => absurd both.1 off) j further
        · exact meets False (fun impossible => impossible.elim) j met

theorem detectLeftRecursion_detects {rules : Rules} (ended : Ended rules) (fuel : Nat) :
    Detects rules (detectLeftRecursion rules fuel) := by
  induction fuel with
  | zero =>
    intro before i after _ finished
    cases finished
  | succ fuel ih =>
    intro before i after inv finished
    simp only [detectLeftRecursion] at finished
    split at finished
    · cases finished
    · rename_i rule found
      split at finished
      · cases finished
      · obtain ⟨⟨reported, middle⟩, loop, last⟩ := Outcome.bind_eq_done.mp finished
        cases reported with
        | true => cases last
        | false =>
          cases last
          obtain ⟨inside, -⟩ := List.getElem?_eq_some_iff.mp found
          generalize entering : (if hasEmptyAlternate true rule = true then
            before.mayBeEmpty.set i true else before.mayBeEmpty) = entered at loop
          have size : entered.length = rules.length := by
            rw [← entering, ← inv.size]
            split
            · exact length_set
            · rfl
          have kept : ∀ j, before.mayBeEmpty.getD j false = true →
              entered.getD j false = true := by
            intro j bit
            rw [← entering]
            split
            · exact getD_set_of_getD bit
            · exact bit
          obtain ⟨searched, meets⟩ := detectElements_searched ih rule true
            ⟨before.visited, before.inProgress.set i true, entered⟩ middle
            ⟨size, inv.visited⟩ loop
          have checked : Checked rules i := by
            refine Acc.intro i fun j edge => ?_
            obtain ⟨rule', found', alternate, member, reference⟩ := edge
            rw [found, some.injEq] at found'
            subst rule'
            obtain ⟨first, second⟩ := @meets_of_leftReference rules True rule j
            apply meets True (fun _ => rfl) j
            rw [splitAlternates_eq 0 rule] at member first second
            rcases mem_cons.mp member with here | later
            · exact first trivial alternate (by rw [here]; rfl) reference
            · exact second alternate later reference
          refine ⟨⟨⟨searched.inv.size, fun j bit => ?_⟩,
            fun j bit => searched.grows j (kept j bit)⟩, checked, fun empty => ?_⟩
          · rcases getD_of_getD_set bit with here | visited
            · rw [here]
              exact checked
            · exact searched.inv.visited j visited
          · apply searched.grows
            rw [← entering, if_pos (directlyEmpty_detected ended found empty),
              getD_eq_getElem?_getD, List.getElem?_set_self (by rw [inv.size]; exact inside)]
            rfl

theorem detectRules_checked {rules : Rules} (ended : Ended rules) (fuel : Nat)
    (indices : List Nat) (state : DetectState) (inv : DetectInv rules state)
    (finished : detectRules rules fuel state indices = .done false) :
    ∀ i ∈ indices, Checked rules i := by
  induction indices generalizing state with
  | nil => exact fun i impossible => by cases impossible
  | cons i rest ih =>
    simp only [detectRules] at finished
    split at finished
    · rename_i visited
      intro j member
      rcases mem_cons.mp member with here | later
      · rw [here]
        exact inv.visited i visited
      · exact ih state inv finished j later
    · obtain ⟨⟨reported, next⟩, first, later⟩ := Outcome.bind_eq_done.mp finished
      cases reported with
      | true => cases later
      | false =>
        obtain ⟨searched, checked, -⟩ :=
          detectLeftRecursion_detects ended fuel state i next inv first
        intro j member
        rcases mem_cons.mp member with here | inRest
        · rw [here]
          exact checked
        · exact ih next searched.inv later j inRest

theorem reportsLeftRecursion_wellFounded {rules : Rules} (ended : Ended rules) {fuel : Nat}
    (finished : reportsLeftRecursion rules fuel = .done false) :
    WellFounded fun j i => DetectEdge rules i j := by
  have clear : ∀ i, (List.replicate rules.length false).getD i false = true → Checked rules i := by
    intro i bit
    rw [getD_eq_getElem?_getD, List.getElem?_replicate] at bit
    split at bit <;> cases bit
  have checked := detectRules_checked ended fuel _ _ ⟨length_replicate, clear⟩ finished
  refine ⟨fun i => ?_⟩
  by_cases inside : i < rules.length
  · exact checked i (mem_range.mpr inside)
  · refine Acc.intro i fun j edge => ?_
    obtain ⟨rule, found, -⟩ := edge
    rw [List.getElem?_eq_none (by omega)] at found
    cases found

def FinitelyMany (rules : Rules) (stack : Stack) : Prop :=
  {other | Reachable (visitStack rules) stack other}.Finite

abbrev Grounded (rules : Rules) (stack : Stack) : Prop :=
  Acc (fun child parent => Expands (visitStack rules) parent child) stack

def Skippable (rules : Rules) (start : Nat) (i : Nat) : Prop :=
  (tableGrammar rules start).Derives [.nonterminal i] []

theorem derives_refs_nil {rules : Rules} {start : Nat} {skipped : List Element}
    (empty : ∀ s ∈ skipped, s.type = .ruleRef ∧ Skippable rules start s.value) :
    (tableGrammar rules start).Derives (symbolsOf skipped) [] := by
  induction skipped with
  | nil => exact Relation.ReflTransGen.refl
  | cons s rest ih =>
    have head := empty s (mem_cons_self ..)
    rw [symbolsOf_ref rest head.1]
    exact derives_append_nil.mpr ⟨head.2, ih fun s' member => empty s' (mem_cons_of_mem _ member)⟩

theorem symbolsOf_refs_append (skipped rest : List Element)
    (refs : ∀ s ∈ skipped, s.type = .ruleRef) :
    symbolsOf (skipped ++ rest) = symbolsOf skipped ++ symbolsOf rest := by
  induction skipped with
  | nil => rfl
  | cons s skipped ih =>
    have head := refs s (mem_cons_self ..)
    rw [cons_append, symbolsOf_ref _ head, symbolsOf_ref _ head, cons_append,
      ih fun s' member => refs s' (mem_cons_of_mem _ member)]

def RuleGrounded (rules : Rules) (start : Nat) (i : Nat) : Prop :=
  ∀ below, (Skippable rules start i → Grounded rules below) →
    ∀ rule, rules[i]? = some rule → ∀ s ∈ alternateStarts rule,
      Grounded rules (pushUnlessEnd rules ⟨i, s⟩ below)

theorem grounded_cons {rules : Rules} {start : Nat} {pos : Pos} {below : Stack}
    (next : (elementAt rules pos).type = .ruleRef → RuleGrounded rules start (elementAt rules pos).value)
    (rest : (elementAt rules pos).type = .ruleRef →
      Skippable rules start (elementAt rules pos).value →
        Grounded rules (pushUnlessEnd rules (pos.advance 1) below)) :
    Grounded rules (pos :: below) := by
  refine Acc.intro _ fun child step => ?_
  obtain ⟨isRef, rule, found, s, starts, same⟩ := expands_iff.mp step
  rw [same]
  exact next isRef _ (rest isRef) rule found s starts

theorem grounded_suffix {rules : Rules} {start i : Nat} {rule : Rule}
    (found : rules[i]? = some rule)
    (corners : ∀ j, LeftCorner (tableGrammar rules start) i j → RuleGrounded rules start j)
    {below : Stack} (suffix skipped : List Element) (pos : Pos)
    (isAlternate : skipped ++ suffix ∈ splitAlternates rule)
    (empty : ∀ s ∈ skipped, s.type = .ruleRef ∧ Skippable rules start s.value)
    (rest : restOf rules pos = suffix)
    (grounded : (tableGrammar rules start).Derives (symbolsOf suffix) [] → Grounded rules below) :
    Grounded rules (pushUnlessEnd rules pos below) := by
  induction suffix generalizing skipped pos with
  | nil =>
    unfold pushUnlessEnd
    split
    · exact grounded Relation.ReflTransGen.refl
    · rename_i inside
      rw [restOf_of_element (eq_false_iff.mpr inside)] at rest
      cases rest
  | cons e suffix ih =>
    have inside : isEndOfSequence (elementAt rules pos) = false := by
      by_contra atEnd
      rw [not_eq_false] at atEnd
      rw [restOf_end atEnd] at rest
      cases rest
    rw [restOf_of_element inside, List.cons.injEq] at rest
    unfold pushUnlessEnd
    rw [inside]
    apply @grounded_cons rules start
    · intro isRef
      apply corners
      refine ⟨⟨i, symbolsOf (skipped ++ e :: suffix)⟩,
        mem_tableGrammar.mpr ⟨rule, found, _, isAlternate, rfl⟩, rfl,
        symbolsOf skipped, symbolsOf suffix, ?_, derives_refs_nil empty⟩
      rw [rest.1] at isRef ⊢
      rw [symbolsOf_refs_append _ _ fun s member => (empty s member).1, symbolsOf_ref suffix isRef]
      rfl
    · intro isRef skip
      rw [rest.1] at isRef skip
      apply ih (skipped ++ [e]) (pos.advance 1)
      · rw [append_assoc]
        exact isAlternate
      · intro s member
        rcases mem_append.mp member with before | here
        · exact empty s before
        · rw [mem_singleton] at here
          rw [here]
          exact ⟨isRef, skip⟩
      · exact rest.2
      · intro emptySuffix
        apply grounded
        rw [symbolsOf_ref suffix isRef]
        exact derives_append_nil.mpr ⟨skip, emptySuffix⟩

theorem ruleGrounded {rules : Rules} {start : Nat}
    (acyclic : ∀ A, ¬ LeftRecursive (tableGrammar rules start) A) (i : Nat) :
    RuleGrounded rules start i := by
  induction i using (wellFounded_leftCorner acyclic).induction with
  | _ i ih =>
    intro below grounded rule found s starts
    have alternate : restOf rules ⟨i, s⟩ ∈ splitAlternates rule := by
      rw [alternates_of_starts found]
      exact mem_map.mpr ⟨s, starts, rfl⟩
    refine grounded_suffix found ih (restOf rules ⟨i, s⟩) [] ⟨i, s⟩ alternate
      (fun s' impossible => by cases impossible) rfl fun empty => grounded ?_
    have step : (tableGrammar rules start).Produces [.nonterminal i]
        (symbolsOf (restOf rules ⟨i, s⟩)) :=
      ⟨⟨i, symbolsOf (restOf rules ⟨i, s⟩)⟩,
        mem_tableGrammar.mpr ⟨rule, found, _, alternate, rfl⟩, .input_output⟩
    exact Relation.ReflTransGen.head step empty

theorem grounded_of_acyclic {rules : Rules} {start : Nat}
    (acyclic : ∀ A, ¬ LeftRecursive (tableGrammar rules start) A) (stack : Stack) :
    Grounded rules stack := by
  induction stack with
  | nil =>
    refine Acc.intro _ fun child step => ?_
    exact absurd step not_expands_nil
  | cons pos below ih =>
    -- what follows the references of the alternate is finite from the end backwards
    generalize length : (restOf rules pos).length = n
    induction n generalizing pos with
    | zero =>
      apply @grounded_cons rules start
      · exact fun _ => ruleGrounded acyclic _
      · intro isRef
        have inside : isEndOfSequence (elementAt rules pos) = false := inside_of_ref isRef
        rw [restOf_of_element inside] at length
        cases length
    | succ n ihLength =>
      apply @grounded_cons rules start
      · exact fun _ => ruleGrounded acyclic _
      · intro isRef _
        unfold pushUnlessEnd
        split
        · exact ih
        · apply ihLength
          have inside : isEndOfSequence (elementAt rules pos) = false := inside_of_ref isRef
          rw [restOf_of_element inside, length_cons] at length
          omega

theorem finitelyMany_of_acyclic {rules : Rules} {start : Nat}
    (acyclic : ∀ A, ¬ LeftRecursive (tableGrammar rules start) A) (stack : Stack) :
    FinitelyMany rules stack := by
  induction grounded_of_acyclic acyclic stack with
  | intro stack _ ih => exact finite_reachable ih

/-- `llama_grammar_init_impl` copies a rule up to its end. -/
def copyRule (raw : List Element) : Rule :=
  (raw.takeWhile fun e => decide (e.type ≠ .end)) ++ [endElement]

def copyRules (raw : List (List Element)) : Rules := raw.map copyRule

theorem copyRules_ended (raw : List (List Element)) : Ended (copyRules raw) := by
  intro rule member
  obtain ⟨source, -, same⟩ := mem_map.mp member
  rw [← same]
  exact ⟨endElement, mem_append_right _ (mem_singleton.mpr rfl), rfl⟩

/-- On a cycle of left corners every step skips only rules that have an empty alternate of
their own. -/
def CyclesSkipDirectlyEmpty (rules : Rules) : Prop :=
  ∀ i j, LeftCorner (tableGrammar rules 0) i j →
    Relation.ReflTransGen (LeftCorner (tableGrammar rules 0)) j i → DetectEdge rules i j

theorem detectEdges_of_cycle {rules : Rules} (seen : CyclesSkipDirectlyEmpty rules) {i j : Nat}
    (path : Relation.TransGen (LeftCorner (tableGrammar rules 0)) i j)
    (back : Relation.ReflTransGen (LeftCorner (tableGrammar rules 0)) j i) :
    Relation.TransGen (DetectEdge rules) i j := by
  induction path with
  | single corner => exact .single (seen _ _ corner back)
  | tail first corner ih =>
    have around := ih (.head corner back)
    exact around.tail (seen _ _ corner (back.trans first.to_reflTransGen))

theorem acyclic_of_check {raw : List (List Element)} {fuel : Nat}
    (accepted : reportsLeftRecursion (copyRules raw) fuel = .done false)
    (seen : CyclesSkipDirectlyEmpty (copyRules raw)) (A : Nat) :
    ¬ LeftRecursive (tableGrammar (copyRules raw) 0) A := by
  intro recursive_
  have wellFounded := reportsLeftRecursion_wellFounded (copyRules_ended raw) accepted
  have cycle := detectEdges_of_cycle seen (leftRecursive_iff.mp recursive_) .refl
  have swapped := Relation.transGen_swap.mp cycle
  exact wellFounded.transGen.irrefl.irrefl A swapped

/-- A check that reports nothing rules out left recursion, and makes the worklist of every
stack come to an end, exactly when no cycle of left corners is hidden behind a rule that is
empty through other rules only. -/
theorem check_sound_iff (raw : List (List Element)) (fuel : Nat)
    (accepted : reportsLeftRecursion (copyRules raw) fuel = .done false) :
    ((∀ A, ¬ LeftRecursive (tableGrammar (copyRules raw) 0) A) ∧
        ∀ stack, Terminates (visitStack (copyRules raw)) stack) ↔
      CyclesSkipDirectlyEmpty (copyRules raw) := by
  constructor
  · rintro ⟨acyclic, -⟩ i j corner back
    exact absurd (leftRecursive_iff.mpr (.head' corner back)) (acyclic i)
  · intro seen
    have acyclic := acyclic_of_check accepted seen
    exact ⟨acyclic, fun stack => terminates_of_finite (finitelyMany_of_acyclic acyclic stack)⟩

/-- `root ::= item root | ""` and `item ::= "a" | "b"`. -/
def listTable : List (List Element) :=
  [[⟨.ruleRef, 1⟩, ⟨.ruleRef, 0⟩, ⟨.alt, 0⟩, ⟨.end, 0⟩],
    [⟨.char, 97⟩, ⟨.alt, 0⟩, ⟨.char, 98⟩, ⟨.end, 0⟩]]

theorem check_sound_iff_at_listTable :
    reportsLeftRecursion (copyRules listTable) 3 = .done false ∧
      (((∀ A, ¬ LeftRecursive (tableGrammar (copyRules listTable) 0) A) ∧
          ∀ stack, Terminates (visitStack (copyRules listTable)) stack) ↔
        CyclesSkipDirectlyEmpty (copyRules listTable)) :=
  ⟨by decide, check_sound_iff listTable 3 (by decide)⟩

/-- `root ::= skip root "c" | "d"`, `skip ::= blank` and `blank ::= "" | "x"`. -/
def hiddenTable : List (List Element) :=
  [[⟨.ruleRef, 1⟩, ⟨.ruleRef, 0⟩, ⟨.char, 99⟩, ⟨.alt, 0⟩, ⟨.char, 100⟩, ⟨.end, 0⟩],
    [⟨.ruleRef, 2⟩, ⟨.end, 0⟩],
    [⟨.alt, 0⟩, ⟨.char, 120⟩, ⟨.end, 0⟩]]

/-- The rule `skip` is empty through `blank`, which the check does not see. -/
theorem hiddenTable_leftRecursive :
    reportsLeftRecursion (copyRules hiddenTable) 4 = .done false ∧
      LeftRecursive (tableGrammar (copyRules hiddenTable) 0) (0 : Nat) := by
  refine ⟨by decide, ?_⟩
  have rule : ∀ i (output : Form), ContextFreeRule.mk i output ∈
      (tableGrammar (copyRules hiddenTable) 0).rules →
      (tableGrammar (copyRules hiddenTable) 0).Produces [.nonterminal i] output :=
    fun i output member => ⟨⟨i, output⟩, member, .input_output⟩
  have root := rule 0 [.nonterminal 1, .nonterminal 0, .terminal [⟨.char, 99⟩]] (mem_tableGrammar.mpr
    ⟨_, rfl, [⟨.ruleRef, 1⟩, ⟨.ruleRef, 0⟩, ⟨.char, 99⟩], by decide, rfl⟩)
  have skip := rule 1 [.nonterminal 2] (mem_tableGrammar.mpr ⟨_, rfl, [⟨.ruleRef, 2⟩], by decide, rfl⟩)
  have blank := rule 2 [] (mem_tableGrammar.mpr ⟨_, rfl, [], by decide, rfl⟩)
  have empty : (tableGrammar (copyRules hiddenTable) 0).Derives [.nonterminal (1 : Nat)] [] :=
    .tail (.single skip) blank
  exact ⟨_, [.terminal [⟨.char, 99⟩]], root, empty.append_right _⟩

end LlamaCpp.Grammar
