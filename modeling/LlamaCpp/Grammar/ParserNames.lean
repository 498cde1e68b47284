import LlamaCpp.Grammar.Parser
import LlamaCpp.Lib.Ensures

/-!
# The parser's names and rules

Every reference has a name that was given its id, and the names that were synthesised end in
their ids.  In the body of a rule every element that continues a class follows an element of
that class.
-/

set_option autoImplicit false

namespace LlamaCpp.Grammar

open LlamaCpp.Lib List

def follows (previous next : Gretype) : Bool :=
  match next with
  | .charRngUpper =>
    match previous with
    | .char | .charNot | .charAlt => true
    | _ => false
  | .charAlt =>
    match previous with
    | .char | .charNot | .charAlt | .charRngUpper => true
    | _ => false
  | _ => true

def isClassType : Gretype → Bool
  | .char | .charNot | .charAlt | .charRngUpper => true
  | _ => false

variable {e : Element} {previous : Gretype} {name baseName : List Byte} {id : Nat}
  {parser before after : GrammarParser}

theorem follows_of_not_tail (previous : Gretype) (notTail : isClassTail e = false) :
    follows previous e.type = true := by
  obtain ⟨type, value⟩ := e
  cases type <;> first | rfl | cases notTail

theorem isClassType_of_follows (isTail : isClassTail e = true)
    (follow : follows previous e.type = true) : isClassType previous = true := by
  obtain ⟨type, value⟩ := e
  cases type with
  | charAlt => cases previous <;> first | rfl | cases follow
  | charRngUpper => cases previous <;> first | rfl | cases follow
  | _ => cases isTail

theorem follows_charAlt (isClass : isClassType previous = true) :
    follows previous .charAlt = true := by
  cases previous <;> first | rfl | cases isClass

theorem follows_any (noClass : isClassType previous = false)
    (follow : follows previous e.type = true) (other : Gretype) : follows other e.type = true := by
  apply follows_of_not_tail
  by_contra isTail
  rw [Bool.not_eq_false] at isTail
  rw [isClassType_of_follows isTail follow] at noClass
  cases noClass

def classesFrom : Gretype → List Element → Bool
  | _, [] => true
  | previous, e :: rest => follows previous e.type && classesFrom e.type rest

def lastType : Gretype → List Element → Gretype
  | previous, [] => previous
  | _, e :: rest => lastType e.type rest

theorem classesFrom_append (previous : Gretype) (front back : List Element) :
    classesFrom previous (front ++ back) =
      (classesFrom previous front && classesFrom (lastType previous front) back) := by
  induction front generalizing previous with
  | nil => rfl
  | cons e front ih => rw [cons_append, classesFrom, classesFrom, lastType, ih, Bool.and_assoc]

theorem classesFrom_any {elements : List Element} (noClass : isClassType previous = false)
    (classes : classesFrom previous elements = true) (other : Gretype) :
    classesFrom other elements = true := by
  cases elements with
  | nil => rfl
  | cons e rest =>
    rw [classesFrom, Bool.and_eq_true] at classes ⊢
    exact ⟨follows_any noClass classes.1 other, classes.2⟩

/-- Elements of the body of a rule: no end, classes in order, and references that have names. -/
structure BodyOk (symbolIds : List (List Byte × Nat)) (body : List Element) : Prop where
  noEnd : ∀ e ∈ body, e.type ≠ .end
  classes : classesFrom .end body = true
  named : ∀ e ∈ body, e.type = .ruleRef → ∃ name, (name, e.value) ∈ symbolIds

section

variable {symbolIds more : List (List Byte × Nat)}

theorem bodyOk_nil : BodyOk symbolIds [] :=
  ⟨fun _ impossible => absurd impossible not_mem_nil, rfl,
    fun _ impossible => absurd impossible not_mem_nil⟩

theorem BodyOk.append {front back : List Element} (first : BodyOk symbolIds front)
    (second : BodyOk symbolIds back) : BodyOk symbolIds (front ++ back) := by
  refine ⟨fun e member => ?_, ?_, fun e member => ?_⟩
  · rcases mem_append.mp member with inFront | inBack
    · exact first.noEnd e inFront
    · exact second.noEnd e inBack
  · rw [classesFrom_append, first.classes, classesFrom_any rfl second.classes]
    rfl
  · rcases mem_append.mp member with inFront | inBack
    · exact first.named e inFront
    · exact second.named e inBack

theorem BodyOk.grow {body : List Element} (ok : BodyOk symbolIds body) (grows : symbolIds ⊆ more) :
    BodyOk more body := by
  refine ⟨ok.noEnd, ok.classes, fun e member isRef => ?_⟩
  obtain ⟨name, entry⟩ := ok.named e member isRef
  exact ⟨name, grows entry⟩

theorem BodyOk.replicate {body : List Element} (ok : BodyOk symbolIds body) (n : Nat) :
    BodyOk symbolIds (List.replicate n body).flatten := by
  induction n with
  | zero => exact bodyOk_nil
  | succ n ih =>
    exact ok.append ih

theorem bodyOk_single {e : Element} (notEnd : e.type ≠ .end) (fresh : isClassTail e = false)
    (named : e.type = .ruleRef → ∃ name, (name, e.value) ∈ symbolIds) : BodyOk symbolIds [e] := by
  refine ⟨fun other member => ?_, ?_, fun other member => ?_⟩
  · rw [mem_singleton.mp member]
    exact notEnd
  · rw [classesFrom, follows_of_not_tail _ fresh]
    rfl
  · rw [mem_singleton.mp member]
    exact named

theorem bodyOk_ref {name : List Byte} {id : Nat} (entry : (name, id) ∈ symbolIds) :
    BodyOk symbolIds [⟨.ruleRef, id⟩] :=
  bodyOk_single (by simp) rfl fun _ => ⟨name, entry⟩

theorem bodyOk_alt : BodyOk symbolIds [⟨.alt, 0⟩] := bodyOk_single (by simp) rfl (by simp)

end

theorem digit_bounds {n : Nat} {c : Char} (member : c ∈ Nat.toDigits 10 n) :
    0x30 ≤ c.toNat ∧ c.toNat ≤ 0x39 := by
  have digit := Nat.isDigit_of_mem_toDigits (by decide) (by decide) member
  rw [Char.isDigit, Bool.and_eq_true, decide_eq_true_eq, decide_eq_true_eq] at digit
  exact digit

theorem digitsValue_decimal (n : Nat) : digitsValue (decimal n) = n := by
  have same : digitsValue (decimal n) = Nat.ofDigitChars 10 (Nat.toDigits 10 n) 0 := by
    rw [digitsValue, decimal, foldl_map]
    apply foldl_ext
    intro value c member
    have bounds := digit_bounds member
    rw [UInt8.toNat_ofNat', Nat.mod_eq_of_lt (by omega)]
    rfl
  rw [same, Nat.ofDigitChars_ten_toDigits]

def IsWord (name : List Byte) : Prop := ∀ c ∈ name, isWordChar c = true

theorem IsWord.noUnderscore (isWord : IsWord name) : Ascii.underscore ∉ name := by
  intro member
  have impossible := isWord _ member
  cases impossible

theorem generatedName_id {other : List Byte} {otherId : Nat} (isWord : IsWord baseName)
    (otherIsWord : IsWord other)
    (same : GrammarParser.generatedName baseName id = GrammarParser.generatedName other otherId) :
    id = otherId := by
  have before : ∀ (name : List Byte) (n : Nat), IsWord name →
      (GrammarParser.generatedName name n).dropWhile isWordChar = Ascii.underscore :: decimal n := by
    intro name n word
    rw [GrammarParser.generatedName, dropWhile_append_of_pos word,
      dropWhile_cons_of_neg (by exact Bool.false_ne_true)]
  have digits := before baseName id isWord
  rw [same, before other otherId otherIsWord, List.cons.injEq] at digits
  rw [← digitsValue_decimal id, ← digits.2, digitsValue_decimal]

/-- The names that have ids.  A name is written in the text or ends in its id, and while the ids
fit into 32 bits no two names share one. -/
structure NamesOk (symbolIds : List (List Byte × Nat)) : Prop where
  distinct : (symbolIds.map Prod.fst).Nodup
  origin : ∀ entry ∈ symbolIds, IsWord entry.1 ∨
    ∃ baseName, IsWord baseName ∧ entry.1 = GrammarParser.generatedName baseName entry.2
  ids : symbolIds.length ≤ 2 ^ 32 →
    (symbolIds.map Prod.snd).Nodup ∧ ∀ entry ∈ symbolIds, entry.2 < symbolIds.length

theorem namesOk_nil : NamesOk [] :=
  ⟨nodup_nil, fun _ impossible => absurd impossible not_mem_nil,
    fun _ => ⟨nodup_nil, fun _ impossible => absurd impossible not_mem_nil⟩⟩

theorem insertName_perm (entry : List Byte × Nat) (symbolIds : List (List Byte × Nat)) :
    (insertName entry symbolIds).Perm (entry :: symbolIds) := by
  induction symbolIds with
  | nil => exact List.Perm.refl _
  | cons other rest ih =>
    rw [insertName]
    split
    · exact List.Perm.refl _
    · exact (ih.cons other).trans (List.Perm.swap entry other rest)

theorem idOf_eq_none (none_ : parser.idOf name = none) : name ∉ parser.symbolIds.map Prod.fst := by
  intro member
  obtain ⟨entry, inIds, same⟩ := mem_map.mp member
  rw [GrammarParser.idOf, Option.map_eq_none_iff, List.find?_eq_none] at none_
  have differs := none_ entry inIds
  rw [decide_eq_true_eq] at differs
  exact differs same

theorem idOf_eq_some (found : parser.idOf name = some id) : (name, id) ∈ parser.symbolIds := by
  obtain ⟨entry, isFound, same⟩ := Option.map_eq_some_iff.mp found
  have isName := List.find?_some isFound
  rw [decide_eq_true_eq] at isName
  rw [← same, ← isName]
  exact mem_of_find?_eq_some isFound

theorem NamesOk.insert (ok : NamesOk parser.symbolIds) (isNew : parser.idOf name = none)
    (origin : IsWord name ∨ ∃ baseName, IsWord baseName ∧ name = GrammarParser.generatedName baseName parser.nextId) :
    NamesOk (insertName (name, parser.nextId) parser.symbolIds) := by
  have perm := insertName_perm (name, parser.nextId) parser.symbolIds
  refine ⟨?_, fun entry member => ?_, fun short => ?_⟩
  · rw [(perm.map Prod.fst).nodup_iff, map_cons, nodup_cons]
    exact ⟨idOf_eq_none isNew, ok.distinct⟩
  · rcases mem_cons.mp (perm.mem_iff.mp member) with here | before
    · rw [here]
      exact origin
    · exact ok.origin entry before
  · rw [perm.length_eq, length_cons] at short
    obtain ⟨distinctIds, below⟩ := ok.ids (by omega)
    have next : parser.nextId = parser.symbolIds.length := Nat.mod_eq_of_lt (by omega)
    refine ⟨?_, fun entry member => ?_⟩
    · rw [(perm.map Prod.snd).nodup_iff, map_cons, nodup_cons]
      refine ⟨fun member => ?_, distinctIds⟩
      obtain ⟨entry, inIds, same⟩ := mem_map.mp member
      have isBelow := below entry inIds
      rw [same, next] at isBelow
      exact lt_irrefl _ isBelow
    · rw [perm.length_eq]
      rcases mem_cons.mp (perm.mem_iff.mp member) with here | before
      · rw [here, next]
        exact Nat.lt_succ_self _
      · exact Nat.lt_succ_of_lt (below entry before)

theorem NamesOk.regenerate (ok : NamesOk parser.symbolIds) (isWord : IsWord baseName)
    {entry : List Byte × Nat} (member : entry ∈ parser.symbolIds)
    (same : entry.1 = GrammarParser.generatedName baseName parser.nextId) :
    entry.2 = parser.nextId := by
  rcases ok.origin entry member with written | ⟨other, otherIsWord, generated⟩
  · rw [same] at written
    have impossible := written.noUnderscore
    rw [GrammarParser.generatedName, mem_append, not_or] at impossible
    exact absurd (mem_cons_self ..) impossible.2
  · rw [generated] at same
    exact generatedName_id otherIsWord isWord same

def RuleOk (symbolIds : List (List Byte × Nat)) (rule : List Element) : Prop :=
  ∃ body, rule = body ++ [⟨.end, 0⟩] ∧ BodyOk symbolIds body

structure ParserOk (parser : GrammarParser) : Prop where
  names : NamesOk parser.symbolIds
  rules : ∀ rule ∈ parser.rules, rule = [] ∨ RuleOk parser.symbolIds rule

abbrev Grows (before after : GrammarParser) : Prop := before.symbolIds ⊆ after.symbolIds

theorem ParserOk.named (ok : ParserOk before) (names : NamesOk after.symbolIds)
    (grows : Grows before after) (sameRules : after.rules = before.rules) : ParserOk after := by
  refine ⟨names, fun rule member => ?_⟩
  rw [sameRules] at member
  rcases ok.rules rule member with empty | ⟨body, same, bodyOk⟩
  · exact Or.inl empty
  · exact Or.inr ⟨body, same, bodyOk.grow grows⟩

structure Names (before after : GrammarParser) (id : Nat) : Prop where
  ok : ParserOk after
  grows : Grows before after
  entry : ∃ name, (name, id) ∈ after.symbolIds
  rules : after.rules = before.rules

theorem getSymbolId_names (ok : ParserOk parser) (isWord : IsWord name) :
    Names parser (parser.getSymbolId name).2 (parser.getSymbolId name).1 := by
  unfold GrammarParser.getSymbolId
  split
  · rename_i id found
    exact ⟨ok, List.Subset.refl _, ⟨name, idOf_eq_some found⟩, rfl⟩
  · rename_i isNew
    have perm := insertName_perm (name, parser.nextId) parser.symbolIds
    have grows : parser.symbolIds ⊆ insertName (name, parser.nextId) parser.symbolIds :=
      fun entry member => perm.mem_iff.mpr (mem_cons_of_mem _ member)
    have names := ok.names.insert isNew (Or.inl isWord)
    exact ⟨ok.named names grows rfl, grows, ⟨name, perm.mem_iff.mpr (mem_cons_self ..)⟩, rfl⟩

theorem generateSymbolId_names (ok : ParserOk parser) (isWord : IsWord baseName) :
    Names parser (parser.generateSymbolId baseName).2 (parser.generateSymbolId baseName).1 := by
  unfold GrammarParser.generateSymbolId
  simp only
  split
  · rename_i known found
    have unchanged : (parser.symbolIds.map fun entry =>
        if entry.1 = GrammarParser.generatedName baseName parser.nextId then
          (GrammarParser.generatedName baseName parser.nextId, parser.nextId) else entry) =
        parser.symbolIds := by
      have each : ∀ entry ∈ parser.symbolIds,
          (if entry.1 = GrammarParser.generatedName baseName parser.nextId then
            (GrammarParser.generatedName baseName parser.nextId, parser.nextId) else entry) =
            id entry := by
        intro entry member
        split
        · rename_i same
          rw [← same, ← ok.names.regenerate isWord member same]
          rfl
        · rfl
      rw [map_congr_left each, map_id]
    rw [unchanged]
    have entry := idOf_eq_some found
    have sameId := ok.names.regenerate isWord entry rfl
    simp only at sameId
    rw [sameId] at entry
    exact ⟨ok, List.Subset.refl _, ⟨_, entry⟩, rfl⟩
  · rename_i isNew
    have perm := insertName_perm
      (GrammarParser.generatedName baseName parser.nextId, parser.nextId) parser.symbolIds
    have grows : parser.symbolIds ⊆ insertName
        (GrammarParser.generatedName baseName parser.nextId, parser.nextId) parser.symbolIds :=
      fun entry member => perm.mem_iff.mpr (mem_cons_of_mem _ member)
    have names := ok.names.insert isNew (Or.inr ⟨baseName, isWord, rfl⟩)
    exact ⟨ok.named names grows rfl, grows, ⟨_, perm.mem_iff.mpr (mem_cons_self ..)⟩, rfl⟩

structure Keeps (before after : GrammarParser) : Prop where
  ok : ParserOk after
  grows : Grows before after

theorem Keeps.trans {middle : GrammarParser} (first : Keeps before middle)
    (second : Keeps middle after) : Keeps before after :=
  ⟨second.ok, fun _ member => second.grows (first.grows member)⟩

theorem Names.keeps (names : Names before after id) : Keeps before after := ⟨names.ok, names.grows⟩

theorem addRule_keeps (ok : ParserOk parser) (ruleId : Nat) {rule : List Element}
    (ruleOk : RuleOk parser.symbolIds rule) :
    Ensures (parser.addRule ruleId rule) (Keeps parser) := by
  have resized : ∀ size, ∀ other ∈ GrammarParser.resize parser.rules size,
      other = [] ∨ RuleOk parser.symbolIds other := by
    intro size other member
    rcases mem_append.mp member with old | new
    · exact ok.rules other (mem_of_mem_take old)
    · exact Or.inl (eq_of_mem_replicate new)
  apply ensures_ite
  · intro _
    apply ensures_ok
    refine ⟨⟨ok.names, fun other member => ?_⟩, List.Subset.refl _⟩
    rcases mem_or_eq_of_mem_set member with old | here
    · split at old
      · exact resized _ other old
      · exact ok.rules other old
    · rw [here]
      exact Or.inr ruleOk
  · exact fun _ => ensures_error

end LlamaCpp.Grammar
