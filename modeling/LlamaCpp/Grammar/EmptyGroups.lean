import LlamaCpp.Grammar.ParserNames

/-!
# Rules of empty groups

Every empty group of a rule is given the next id, and a name that ends in it.  An item that is
repeated no times is dropped, but its name keeps the id.  The ids have 32 bits, so that the
name after all others is given the id of the first one.
-/

set_option autoImplicit false

namespace LlamaCpp.Grammar

open LlamaCpp.Lib List

def rName : List Byte := [0x72]

def emptyGroups : Nat → List Byte
  | 0 => []
  | k + 1 => Ascii.openParen :: Ascii.closeParen :: emptyGroups k

/-- `a{0}()`. -/
def droppedThenGroup : List Byte :=
  [0x61, Ascii.openBrace, 0x30, Ascii.closeBrace, Ascii.openParen, Ascii.closeParen]

/-- `r::=` with empty groups, `a{0}` and one more group. -/
def wrapText (k : Nat) : List Byte :=
  [0x72, Ascii.colon, Ascii.colon, Ascii.equals] ++ (emptyGroups k ++ droppedThenGroup)

/-- The rules when `k` groups have been parsed; the first one is added last. -/
def groupRules : Nat → List (List Element)
  | 0 => []
  | k + 1 => [] :: List.replicate (k + 1) [⟨.end, 0⟩]

/-- The names when `k` groups have been parsed. -/
structure Numbered (k : Nat) (parser : GrammarParser) : Prop where
  length : parser.symbolIds.length = k + 1
  root : (rName, 0) ∈ parser.symbolIds
  names : ∀ entry ∈ parser.symbolIds, entry.1 = rName ∨
    ∃ id, 1 ≤ id ∧ id ≤ k ∧ entry.1 = GrammarParser.generatedName rName id
  groups : ∀ id, 1 ≤ id → id ≤ k → (GrammarParser.generatedName rName id, id) ∈ parser.symbolIds
  rules : parser.rules = groupRules k

theorem isWord_rName : IsWord rName := by
  intro c member
  rw [mem_singleton.mp member]
  rfl

theorem parseAlternates_empty (fuel depth ruleId : Nat) (isNested : Bool) (rest : List Byte)
    (parser : GrammarParser) :
    parseAlternates none (fuel + 1) rName (depth + 1) isNested (Ascii.closeParen :: rest) ruleId
        parser =
      parser.addRule ruleId [⟨.end, 0⟩] >>= fun added => .ok (Ascii.closeParen :: rest, added) := by
  rfl

variable {k : Nat} {parser : GrammarParser} {id : Nat} {s : SequenceState} {rest : List Byte}

theorem addRule_groupRules (rules : parser.rules = groupRules k) (fits : k + 2 < 2 ^ 32) :
    parser.addRule (k + 1) [⟨.end, 0⟩] = .ok { parser with rules := groupRules (k + 1) } := by
  have size : (k + 1 + 1) % 2 ^ 32 = k + 2 := Nat.mod_eq_of_lt fits
  have resized : (GrammarParser.resize (groupRules k) (k + 2)).length = k + 2 ∧
      (GrammarParser.resize (groupRules k) (k + 2)).set (k + 1) [⟨.end, 0⟩] = groupRules (k + 1) := by
    cases k with
    | zero => exact ⟨rfl, rfl⟩
    | succ k =>
      have length : (groupRules (k + 1)).length = k + 2 := by simp [groupRules]
      rw [GrammarParser.resize, take_of_length_le (by omega), length,
        show k + 1 + 2 - (k + 2) = 1 by omega]
      constructor
      · rw [length_append, length]
        rfl
      · rw [set_append_right _ _ (by omega), length, show k + 1 + 1 - (k + 2) = 0 by omega,
          groupRules, groupRules, replicate_succ' (n := k + 1)]
        rfl
  have outside : (groupRules k).length ≤ k + 1 := by
    cases k <;> simp [groupRules]
  unfold GrammarParser.addRule
  simp only [rules, if_pos outside, size, resized.1, resized.2]
  rw [if_pos (Nat.lt_succ_self _)]

theorem Numbered.isNew (numbered : Numbered k parser) {name : List Byte} (notRoot : name ≠ rName)
    (notGroup : ∀ id, 1 ≤ id → id ≤ k → name ≠ GrammarParser.generatedName rName id) :
    parser.idOf name = none := by
  rw [GrammarParser.idOf, Option.map_eq_none_iff, List.find?_eq_none]
  intro entry member same
  rw [decide_eq_true_eq] at same
  rcases numbered.names entry member with isRoot | ⟨id, positive, below, isGroup⟩
  · exact notRoot (same.symm.trans isRoot)
  · exact notGroup id positive below (same.symm.trans isGroup)

theorem generatedName_ne_root (id : Nat) : GrammarParser.generatedName rName id ≠ rName := by
  intro same
  cases same

theorem Numbered.newGroup (numbered : Numbered k parser) (notGroup : id = 0 ∨ k < id) :
    parser.idOf (GrammarParser.generatedName rName id) = none := by
  apply numbered.isNew (generatedName_ne_root id)
  intro other positive below same
  have sameId := generatedName_id isWord_rName isWord_rName same
  omega

theorem generateSymbolId_new (next : parser.nextId = id)
    (isNew : parser.idOf (GrammarParser.generatedName rName id) = none) :
    parser.generateSymbolId rName = (id, { parser with
      symbolIds := insertName (GrammarParser.generatedName rName id, id) parser.symbolIds }) := by
  unfold GrammarParser.generateSymbolId
  simp [next, isNew]

theorem groupItem_empty {named added : GrammarParser}
    (generated : s.parser.generateSymbolId rName = (id, named))
    (ruleAdded : named.addRule id [⟨.end, 0⟩] = .ok added)
    (oneMore : (added.symbolIds.length % 2 ^ 32 + 2 ^ 32 - s.parser.symbolIds.length % 2 ^ 32) % 2 ^ 32 = 1)
    (here : s.pos = Ascii.openParen :: Ascii.closeParen :: rest)
    (noSpace : parseSpace rest false = rest) (fuel depth : Nat) :
    groupItem (parseAlternates none (fuel + 1) rName (depth + 1) true) rName false s =
      .ok ⟨rest, s.rule ++ [⟨.ruleRef, id⟩], s.rule.length, 1, added⟩ := by
  have inside : parseSpace s.pos.tail true = Ascii.closeParen :: rest := by
    rw [here]
    rfl
  unfold groupItem
  rw [generated]
  simp only [inside, parseAlternates_empty, ruleAdded]
  change Except.ok (SequenceState.mk (parseSpace rest false) (s.rule ++ [⟨.ruleRef, id⟩])
    s.rule.length (max 1 ((added.symbolIds.length % 2 ^ 32 + 2 ^ 32 -
      s.parser.symbolIds.length % 2 ^ 32) % 2 ^ 32)) added) = _
  rw [noSpace, oneMore]
  rfl

theorem Numbered.group (numbered : Numbered k s.parser) (fits : k + 2 < 2 ^ 32)
    (here : s.pos = Ascii.openParen :: Ascii.closeParen :: rest)
    (noSpace : parseSpace rest false = rest) (fuel depth : Nat) : ∃ next, Numbered (k + 1) next ∧
      groupItem (parseAlternates none (fuel + 1) rName (depth + 1) true) rName false s =
        .ok ⟨rest, s.rule ++ [⟨.ruleRef, k + 1⟩], s.rule.length, 1, next⟩ := by
  have next : s.parser.nextId = k + 1 := by
    rw [GrammarParser.nextId, numbered.length, Nat.mod_eq_of_lt (by omega)]
  have perm := insertName_perm (GrammarParser.generatedName rName (k + 1), k + 1) s.parser.symbolIds
  have length : (insertName (GrammarParser.generatedName rName (k + 1), k + 1)
      s.parser.symbolIds).length = k + 2 := by
    rw [perm.length_eq, length_cons, numbered.length]
  refine ⟨⟨insertName (GrammarParser.generatedName rName (k + 1), k + 1) s.parser.symbolIds,
    groupRules (k + 1)⟩, ⟨length, ?_, fun entry member => ?_, fun id positive below => ?_, rfl⟩, ?_⟩
  · exact perm.mem_iff.mpr (mem_cons_of_mem _ numbered.root)
  · rcases mem_cons.mp (perm.mem_iff.mp member) with isNew | before
    · rw [isNew]
      exact Or.inr ⟨k + 1, by omega, le_refl _, rfl⟩
    · rcases numbered.names entry before with isRoot | ⟨id, positive, below, isGroup⟩
      · exact Or.inl isRoot
      · exact Or.inr ⟨id, positive, by omega, isGroup⟩
  · apply perm.mem_iff.mpr
    rcases Nat.lt_or_eq_of_le below with before | isLast
    · exact mem_cons_of_mem _ (numbered.groups id positive (Nat.le_of_lt_succ before))
    · rw [isLast]
      exact mem_cons_self ..
  · have isNew := numbered.newGroup (Or.inr (Nat.lt_succ_self k))
    apply groupItem_empty (generateSymbolId_new next isNew)
      (addRule_groupRules numbered.rules fits) ?_ here noSpace
    rw [length, numbered.length]
    omega

/-- The body of the loop of `parse_sequence` over the rule. -/
abbrev rItem (fuel depth : Nat) : SequenceState → Option (Parsed SequenceState) :=
  sequenceItem none (fuel + 1) (parseAlternates none (fuel + 1) rName (depth + 1) true) rName false

inductive ItemSteps (item : SequenceState → Option (Parsed SequenceState)) :
    Nat → SequenceState → SequenceState → Prop
  | refl {s : SequenceState} : ItemSteps item 0 s s
  | step {n : Nat} {s middle next : SequenceState} (found : item s = some (.ok middle))
      (rest : ItemSteps item n middle next) : ItemSteps item (n + 1) s next

theorem ItemSteps.loop {item : SequenceState → Option (Parsed SequenceState)} {n : Nat}
    {next : SequenceState} (steps : ItemSteps item n s next) (fuel : Nat) :
    sequenceLoop item (fuel + n) s = sequenceLoop item fuel next := by
  induction steps with
  | refl => rfl
  | step found _ ih =>
    rw [← add_assoc, sequenceLoop, found]
    exact ih

theorem ItemSteps.trans {item : SequenceState → Option (Parsed SequenceState)} {n m : Nat}
    {middle next : SequenceState} (first : ItemSteps item n s middle)
    (second : ItemSteps item m middle next) : ItemSteps item (m + n) s next := by
  induction first with
  | refl => exact second
  | step found _ ih => exact .step found (ih second)

theorem rItem_group (here : s.pos = Ascii.openParen :: rest) (fuel depth : Nat) :
    rItem fuel depth s =
      some (groupItem (parseAlternates none (fuel + 1) rName (depth + 1) true) rName false s) := by
  have c : byteAt s.pos = Ascii.openParen := by
    rw [here]
    rfl
  unfold rItem sequenceItem
  simp only [c]
  rfl

/-- What the rule refers to when `k` groups have been parsed. -/
structure GroupsParsed (k : Nat) (s : SequenceState) : Prop where
  numbered : Numbered k s.parser
  refs : ∀ e ∈ s.rule, e.type = .ruleRef ∧ e.value ≤ k

theorem groupsParsed_start (pos : List Byte) :
    GroupsParsed 0 ⟨pos, [], 0, 1, ⟨[(rName, 0)], []⟩⟩ := by
  refine ⟨⟨rfl, mem_singleton.mpr rfl, fun entry member => ?_, fun id _ _ => by omega, rfl⟩,
    fun _ impossible => absurd impossible not_mem_nil⟩
  rw [mem_singleton.mp member]
  exact Or.inl rfl

theorem noSpace_groups (k : Nat) {newlineOk : Bool} (noSpace : parseSpace rest newlineOk = rest) :
    parseSpace (emptyGroups k ++ rest) newlineOk = emptyGroups k ++ rest := by
  cases k with
  | zero => exact noSpace
  | succ k => cases newlineOk <;> rfl

theorem itemSteps_groups (rest : List Byte) (noSpace : parseSpace rest false = rest)
    (fuel depth left : Nat) (parsed : GroupsParsed k s) (fits : k + left + 1 < 2 ^ 32)
    (here : s.pos = emptyGroups left ++ rest) :
    ∃ next, GroupsParsed (k + left) next ∧ next.pos = rest ∧
      ItemSteps (rItem fuel depth) left s next := by
  induction left generalizing k s with
  | zero => exact ⟨s, parsed, here, .refl⟩
  | succ left ih =>
    obtain ⟨added, numbered, group⟩ := parsed.numbered.group (by omega) here
      (noSpace_groups left noSpace) fuel depth
    have nextParsed : GroupsParsed (k + 1) ⟨emptyGroups left ++ rest,
        s.rule ++ [⟨.ruleRef, k + 1⟩], s.rule.length, 1, added⟩ := by
      refine ⟨numbered, fun e member => ?_⟩
      rcases mem_append.mp member with before | isNew
      · have old := parsed.refs e before
        exact ⟨old.1, Nat.le_succ_of_le old.2⟩
      · rw [mem_singleton.mp isNew]
        exact ⟨rfl, le_refl _⟩
    obtain ⟨final, finalParsed, atRest, steps⟩ := ih nextParsed (by omega) rfl
    have found := rItem_group here fuel depth
    rw [group] at found
    rw [show k + (left + 1) = k + 1 + left by omega]
    exact ⟨final, finalParsed, atRest, .step found steps⟩

theorem handleRepetitions_none (rule : List Element) (e : Element) (pos : List Byte)
    (parser : GrammarParser) :
    handleRepetitions rName 0 0 ⟨pos, rule ++ [e], rule.length, 1, parser⟩ =
      .ok ⟨pos, rule, rule.length, 1, parser⟩ := by
  have longer : rule.length ≠ (rule ++ [e]).length := by
    rw [length_append, length_singleton]
    omega
  unfold handleRepetitions
  simp only [if_neg longer, take_left]
  rfl

/-- `a{0}`. -/
def droppedItem : List Byte := [0x61, Ascii.openBrace, 0x30, Ascii.closeBrace]

/-- `a{0}` gives the name `a` an id and leaves the rule as it was. -/
theorem itemSteps_dropped (numbered : Numbered k parser) (rule : List Element)
    (start nPrevRules fuel depth : Nat) (rest : List Byte)
    (noSpace : parseSpace rest false = rest) :
    ItemSteps (rItem fuel depth) 2 ⟨droppedItem ++ rest, rule, start, nPrevRules, parser⟩
      ⟨rest, rule, rule.length, 1,
        ⟨insertName ([0x61], parser.nextId) parser.symbolIds, parser.rules⟩⟩ := by
  have isNew : parser.idOf [0x61] = none := by
    apply numbered.isNew (by decide)
    intro id _ _ same
    cases same
  have given : parser.getSymbolId [0x61] = (parser.nextId,
      ⟨insertName ([0x61], parser.nextId) parser.symbolIds, parser.rules⟩) := by
    unfold GrammarParser.getSymbolId
    rw [isNew]
  have named : rItem fuel depth ⟨droppedItem ++ rest, rule, start, nPrevRules, parser⟩ =
      some (.ok ⟨droppedItem.drop 1 ++ rest, rule ++ [⟨.ruleRef, (parser.getSymbolId [0x61]).1⟩],
        rule.length, 1, (parser.getSymbolId [0x61]).2⟩) := rfl
  rw [given] at named
  refine .step named (.step ?_ .refl)
  have bounds : rItem fuel depth ⟨droppedItem.drop 1 ++ rest,
      rule ++ [⟨.ruleRef, parser.nextId⟩], rule.length, 1,
      ⟨insertName ([0x61], parser.nextId) parser.symbolIds, parser.rules⟩⟩ =
        some (handleRepetitions rName 0 0 ⟨parseSpace rest false,
          rule ++ [⟨.ruleRef, parser.nextId⟩], rule.length, 1,
          ⟨insertName ([0x61], parser.nextId) parser.symbolIds, parser.rules⟩⟩) := rfl
  rw [bounds, handleRepetitions_none, noSpace]

theorem Numbered.newGroup_dropped (numbered : Numbered k parser) :
    (GrammarParser.mk (insertName ([0x61], parser.nextId) parser.symbolIds) parser.rules).idOf
      (GrammarParser.generatedName rName 0) = none := by
  have before := numbered.newGroup (Or.inl rfl)
  rw [GrammarParser.idOf, Option.map_eq_none_iff, List.find?_eq_none] at before ⊢
  intro entry member
  rcases mem_cons.mp ((insertName_perm _ _).mem_iff.mp member) with isDropped | old
  · rw [isDropped]
    intro same
    cases same
  · exact before entry old

theorem sequenceLoop_wrapped (wraps : k + 2 = 2 ^ 32) (numbered : Numbered k parser)
    (rule : List Element) (start nPrevRules fuel depth more : Nat) :
    ∃ symbolIds, (rName, 0) ∈ symbolIds ∧ (GrammarParser.generatedName rName 0, 0) ∈ symbolIds ∧
      sequenceLoop (rItem fuel depth) (more + 4)
          ⟨droppedThenGroup, rule, start, nPrevRules, parser⟩ =
        .ok ⟨[], rule ++ [⟨.ruleRef, 0⟩], rule.length, 1,
          ⟨symbolIds, List.replicate (k + 1) [⟨.end, 0⟩]⟩⟩ := by
  have permDropped := insertName_perm ([0x61], parser.nextId) parser.symbolIds
  generalize dropped : insertName ([0x61], parser.nextId) parser.symbolIds = withDropped
    at permDropped
  have permWrapped := insertName_perm (GrammarParser.generatedName rName 0, 0) withDropped
  have next : (GrammarParser.mk withDropped parser.rules).nextId = 0 := by
    rw [GrammarParser.nextId, permDropped.length_eq, length_cons, numbered.length, wraps,
      Nat.mod_self]
  have isNew : (GrammarParser.mk withDropped parser.rules).idOf
      (GrammarParser.generatedName rName 0) = none := by
    rw [← dropped]
    exact numbered.newGroup_dropped
  have added : (GrammarParser.mk (insertName (GrammarParser.generatedName rName 0, 0) withDropped)
      parser.rules).addRule 0 [⟨.end, 0⟩] =
        .ok ⟨insertName (GrammarParser.generatedName rName 0, 0) withDropped,
          List.replicate (k + 1) [⟨.end, 0⟩]⟩ := by
    obtain ⟨n, same⟩ : ∃ n, k = n + 1 := ⟨k - 1, by omega⟩
    rw [numbered.rules, same]
    rfl
  refine ⟨insertName (GrammarParser.generatedName rName 0, 0) withDropped, ?_, ?_, ?_⟩
  · have inDropped := permDropped.mem_iff.mpr (mem_cons_of_mem _ numbered.root)
    exact permWrapped.mem_iff.mpr (mem_cons_of_mem _ inDropped)
  · exact permWrapped.mem_iff.mpr (mem_cons_self ..)
  · have allIds : withDropped.length = 2 ^ 32 := by
      rw [permDropped.length_eq, length_cons, numbered.length]
      exact wraps
    have oneMore : ((insertName (GrammarParser.generatedName rName 0, 0) withDropped).length % 2 ^ 32 +
        2 ^ 32 - withDropped.length % 2 ^ 32) % 2 ^ 32 = 1 := by
      rw [permWrapped.length_eq, length_cons, allIds]
      rfl
    have group := rItem_group (s := ⟨[Ascii.openParen, Ascii.closeParen], rule, rule.length, 1,
      ⟨withDropped, parser.rules⟩⟩) rfl fuel depth
    rw [groupItem_empty (generateSymbolId_new next isNew) added oneMore rfl rfl] at group
    have steps := itemSteps_dropped numbered rule start nPrevRules fuel depth
      [Ascii.openParen, Ascii.closeParen] rfl
    rw [dropped] at steps
    exact ((steps.trans (.step group .refl)).loop (more + 1)).trans rfl

theorem cStr_of_nonzero {text : List Byte} (nonzero : ∀ byte ∈ text, byte ≠ 0) :
    cStr text = text := by
  apply takeWhile_eq_self_iff.mpr
  intro byte member
  rw [decide_eq_true_eq]
  exact nonzero byte member

theorem emptyGroups_nonzero (k : Nat) : ∀ byte ∈ emptyGroups k, byte ≠ 0 := by
  induction k with
  | zero => exact fun _ impossible => absurd impossible not_mem_nil
  | succ k ih =>
    intro byte member
    rcases mem_cons.mp member with isOpen | rest
    · rw [isOpen]
      decide
    · rcases mem_cons.mp rest with isClose | later
      · rw [isClose]
        decide
      · exact ih byte later

theorem cStr_groups (k : Nat) {front : List Byte}
    (inFront : (front.all fun byte => byte != 0) = true)
    (inRest : (rest.all fun byte => byte != 0) = true) :
    cStr (front ++ (emptyGroups k ++ rest)) = front ++ (emptyGroups k ++ rest) := by
  apply cStr_of_nonzero
  intro byte member
  rcases mem_append.mp member with before | after
  · exact bne_iff_ne.mp (all_eq_true.mp inFront byte before)
  · rcases mem_append.mp after with inGroups | later
    · exact emptyGroups_nonzero k byte inGroups
    · exact bne_iff_ne.mp (all_eq_true.mp inRest byte later)

theorem cStr_wrapText (k : Nat) : cStr (wrapText k) = wrapText k :=
  cStr_groups k (by decide) (by decide)

theorem checkRule_ok {rule : List Element} (some_ : rule ≠ [])
    (refs : ∀ e ∈ rule, e.type = .ruleRef → parser.rules.getD e.value [] ≠ []) :
    checkRule parser rule = .ok () := by
  rw [checkRule, if_neg some_]
  apply forM_ok
  intro e member
  rw [checkElement, if_neg]
  rintro ⟨isRef, missing⟩
  exact refs e member isRef missing

/-- The parser at the end, with the rule that refers to `k` groups and to itself. -/
def wrappedParser (symbolIds : List (List Byte × Nat)) (rule : List Element) (k : Nat) :
    GrammarParser :=
  ⟨symbolIds, (rule ++ [⟨.ruleRef, 0⟩] ++ [⟨.end, 0⟩]) :: List.replicate k [⟨.end, 0⟩]⟩

theorem wrappedParser_checked (symbolIds : List (List Byte × Nat)) {rule : List Element}
    (refs : ∀ e ∈ rule, e.type = .ruleRef ∧ e.value ≤ k) :
    (wrappedParser symbolIds rule k).rules.forM (checkRule (wrappedParser symbolIds rule k)) =
      .ok () := by
  have present : ∀ i ≤ k, (wrappedParser symbolIds rule k).rules.getD i [] ≠ [] := by
    intro i inside
    cases i with
    | zero => simp [wrappedParser]
    | succ i =>
      rw [wrappedParser, getD_cons_succ, getD_eq_getElem?_getD,
        List.getElem?_replicate_of_lt (by omega)]
      exact cons_ne_nil _ _
  apply forM_ok
  intro other member
  rcases mem_cons.mp member with isRoot | isGroup
  · rw [isRoot]
    apply checkRule_ok (by simp)
    intro e inRule isRef
    rcases mem_append.mp inRule with inBody | isEnd
    · rcases mem_append.mp inBody with before | isLast
      · exact present e.value (refs e before).2
      · rw [mem_singleton.mp isLast]
        exact present 0 (Nat.zero_le k)
    · rw [mem_singleton.mp isEnd] at isRef
      cases isRef
  · rw [eq_of_mem_replicate isGroup]
    apply checkRule_ok (cons_ne_nil _ _)
    intro e inRule isRef
    rw [mem_singleton.mp inRule] at isRef
    cases isRef

theorem parse_wrapText (wraps : k + 2 = 2 ^ 32) :
    ∃ parser, parse none (k + 8) (wrapText k) = .ok parser ∧ (rName, 0) ∈ parser.symbolIds ∧
      (GrammarParser.generatedName rName 0, 0) ∈ parser.symbolIds := by
  have first : GroupsParsed 0 ⟨emptyGroups k ++ droppedThenGroup, [], 0, 1, ⟨[(rName, 0)], []⟩⟩ :=
    groupsParsed_start _
  obtain ⟨⟨pos, rule, start, nPrevRules, parser⟩, parsed, atEnd, groups⟩ :=
    itemSteps_groups droppedThenGroup rfl (k + 7) (k + 6) k first (by omega) rfl
  rw [zero_add] at parsed
  simp only at atEnd
  rw [atEnd] at groups
  obtain ⟨symbolIds, root, wrapped, ended⟩ :=
    sequenceLoop_wrapped wraps parsed.numbered rule start nPrevRules (k + 7) (k + 6) 4
  have whole := (congrArg (fun fuel => sequenceLoop (rItem (k + 7) (k + 6)) fuel _)
    (add_comm k 8)).trans ((groups.loop 8).trans ended)
  have alternates : parseAlternates none (k + 8) rName (k + 8) false
      (emptyGroups k ++ droppedThenGroup) 0 ⟨[(rName, 0)], []⟩ =
        .ok ([], wrappedParser symbolIds rule k) := by
    change (sequenceLoop (rItem (k + 7) (k + 6)) (k + 8)
      ⟨emptyGroups k ++ droppedThenGroup, [], 0, 1, ⟨[(rName, 0)], []⟩⟩ >>= _) = _
    rw [whole]
    rfl
  have ruled : parseRule none (k + 8) (wrapText k) ⟨[], []⟩ =
      .ok ([], wrappedParser symbolIds rule k) := by
    change (parseAlternates none (k + 8) rName (k + 8) false
      (parseSpace (emptyGroups k ++ droppedThenGroup) true) 0 ⟨[(rName, 0)], []⟩ >>= _) = _
    rw [noSpace_groups k rfl, alternates]
    rfl
  have rules : parseRules none (k + 8) (k + 8) (parseSpace (cStr (wrapText k)) true) ⟨[], []⟩ =
      .ok (wrappedParser symbolIds rule k) := by
    rw [cStr_wrapText]
    change (parseRule none (k + 8) (wrapText k) ⟨[], []⟩ >>= _) = _
    rw [ruled]
    rfl
  refine ⟨wrappedParser symbolIds rule k, ?_, root, wrapped⟩
  rw [parse, rules]
  change ((wrappedParser symbolIds rule k).rules.forM
    (checkRule (wrappedParser symbolIds rule k)) >>= _) = _
  rw [wrappedParser_checked symbolIds parsed.refs]
  rfl

end LlamaCpp.Grammar
