import LlamaCpp.Grammar.AcceptToken

/-!
# The mask and the tokens that are accepted

The mask lets a candidate through when it comes to a token element that matches the
token, also after some of the candidate's code points have been read.  The stacks that
accept the token drop such a reading.  Apart from this, and from code points that are zero,
a candidate that the mask lets through is taken by a stack.
-/

set_option autoImplicit false

namespace LlamaCpp.Grammar

open LlamaCpp.Lib List

/-- What the sampler asks of `llama_vocab`. -/
structure Vocab where
  tokenToPiece : Nat → List Byte
  isEog : Nat → Bool

/-- The candidates of `llama_grammar_sample_impl`: tokens that end no generation, whose
piece does not begin with a zero byte. -/
def grammarCandidates (vocab : Vocab) (partialUtf8 : PartialUtf8) (ids : List Nat) : List Candidate :=
  ids.zipIdx.filterMap fun (id, index) =>
    let piece := vocab.tokenToPiece id
    if vocab.isEog id then none
    else if piece.headD 0 = 0 then none
    else
      let decoded := decodeUtf8 piece partialUtf8
      some ⟨index, decoded.1, 0, decoded.2, id⟩

theorem mem_grammarCandidates {vocab : Vocab} {partialUtf8 : PartialUtf8} {ids : List Nat}
    {tok : Candidate} (member : tok ∈ grammarCandidates vocab partialUtf8 ids) :
    (vocab.tokenToPiece tok.id).headD 0 ≠ 0 ∧ tok.offset = 0 ∧
      tok.codePoints = codePointsOf (vocab.tokenToPiece tok.id) partialUtf8 ++ [0] ∧
      tok.partialUtf8 = (decodeUtf8 (vocab.tokenToPiece tok.id) partialUtf8).2 := by
  obtain ⟨⟨id, index⟩, -, found⟩ := mem_filterMap.mp member
  simp only at found
  split at found
  · cases found
  · split at found
    · cases found
    · rename_i nonempty
      cases found
      exact ⟨nonempty, rfl, decodeUtf8_ends _ _, rfl⟩

section

variable {rules : Rules} {tok : Candidate} {chars : List Nat}
  (buffer : tok.codePoints = chars ++ [0]) (noZero : 0 ∉ chars)

include buffer

theorem Candidate.drop_of_inside (inside : tok.codePoint ≠ 0) :
    chars.drop tok.offset = tok.codePoint :: chars.drop (tok.offset + 1) := by
  have short : tok.offset < chars.length := by
    by_contra long
    apply inside
    rw [codePoint, buffer, getD_eq_getElem?_getD, List.getElem?_append_right (by omega)]
    cases tok.offset - chars.length <;> simp
  have here : tok.codePoint = chars[tok.offset] := by
    rw [codePoint, buffer, getD_eq_getElem?_getD, List.getElem?_append_left short,
      List.getElem?_eq_getElem short, Option.getD_some]
  rw [here]
  exact drop_eq_getElem_cons short

include noZero

theorem Candidate.drop_of_ended (ended : tok.codePoint = 0) : chars.drop tok.offset = [] := by
  apply drop_eq_nil_of_le
  by_contra short
  rw [not_le] at short
  rw [codePoint, buffer, getD_eq_getElem?_getD, List.getElem?_append_left short,
    List.getElem?_eq_getElem short] at ended
  exact noZero (ended ▸ getElem_mem short)

end

variable {stack : Stack}

theorem Passes.reads {rules : Rules} {tok : Candidate} (passes : Passes rules stack tok)
    {chars : List Nat} (buffer : tok.codePoints = chars ++ [0]) (noZero : 0 ∉ chars) :
    (∃ found, ReadsTo rules stack (chars.drop tok.offset) found ∧
        (tok.partialUtf8.nRemain = 0 ∨ IsCharTop rules found)) ∨
      ∃ front back found, chars.drop tok.offset = front ++ back ∧ back ≠ [] ∧
        ReadsTo rules stack front found ∧ TakesToken rules tok.id found := by
  induction passes with
  | @ended stack tok atEnd fits =>
    refine Or.inl ⟨stack, ?_, fits⟩
    rw [tok.drop_of_ended buffer noZero atEnd]
    exact .refl stack
  | @token stack tok inside takes =>
    refine Or.inr ⟨[], chars.drop tok.offset, stack, rfl, ?_, .refl stack, takes⟩
    rw [tok.drop_of_inside buffer inside]
    exact cons_ne_nil _ _
  | @char stack next found tok inside enters path leaf _ ih =>
    have first : ReadsChr rules tok.codePoint stack found := ⟨next, enters, path, leaf⟩
    rw [tok.drop_of_inside buffer inside]
    rcases ih buffer with ⟨final, reads, fits⟩ | ⟨front, back, final, split_, some_, reads, takes⟩
    · exact Or.inl ⟨final, .step first reads, fits⟩
    · refine Or.inr ⟨tok.codePoint :: front, back, final, ?_, some_, .step first reads, takes⟩
      rw [cons_append, ← split_]
      rfl

/-- A token on which the mask and the stacks agree: no code point of its piece is zero, no
stack comes to a token element matching the token with only a part of the piece read, and the
expansions that the call asks for come to an end, those after a token element with a stack. -/
structure Agreed (rules : Rules) (grammar : GrammarState) (token : Nat) (piece : List Byte) :
    Prop where
  noZero : 0 ∉ codePointsOf piece grammar.partialUtf8
  noTokenInside : ∀ stack ∈ grammar.grammarStacks, ∀ front back found,
    codePointsOf piece grammar.partialUtf8 = front ++ back → front ≠ [] → back ≠ [] →
      ReadsTo rules stack front found → ¬ TakesToken rules token found
  ends : ∀ stack ∈ grammar.grammarStacks,
    StackEnds rules token (codePointsOf piece grammar.partialUtf8) stack
  goesOn : ∀ pos below, pos :: below ∈ grammar.grammarStacks →
    TakesToken rules token (pos :: below) →
      ∃ found, Reachable (visitStack rules) (pushUnlessEnd rules (pos.advance 1) below) found ∧
        visitStack rules found = .leaf

theorem ReadsTo.charTop {rules : Rules} {found : Stack} {chars : List Nat}
    (reads : ReadsTo rules stack chars found) (some_ : chars ≠ []) : IsCharTop rules stack := by
  cases reads with
  | refl => exact absurd rfl some_
  | step first _ =>
    obtain ⟨next, enters, -⟩ := first
    cases enters with
    | char _ isChar _ => exact isChar

theorem Passes.takes {rules : Rules} {vocab : Vocab} {grammar : GrammarState} {ids : List Nat}
    {tok : Candidate} (member : tok ∈ grammarCandidates vocab grammar.partialUtf8 ids)
    (agreed : Agreed rules grammar tok.id (vocab.tokenToPiece tok.id))
    (isStack : stack ∈ grammar.grammarStacks) (passes : Passes rules stack tok) :
    ∃ found, Takes rules tok.id
      (codePointsOf (vocab.tokenToPiece tok.id) grammar.partialUtf8) stack found := by
  obtain ⟨nonempty, atStart, buffer, decoded⟩ := mem_grammarCandidates member
  have readings := passes.reads buffer agreed.noZero
  rw [atStart, drop_zero] at readings
  rcases readings with ⟨found, reads, fits⟩ | ⟨front, back, found, split_, some_, reads, takes⟩
  · refine ⟨found, .chars ?_ reads⟩
    by_cases none_ : codePointsOf (vocab.tokenToPiece tok.id) grammar.partialUtf8 = []
    · -- only an incomplete sequence is left without code points, and only a class takes it
      rw [none_, readsTo_nil_iff] at reads
      rw [decoded, reads] at fits
      exact fits.resolve_left (decodeUtf8_nonempty nonempty none_)
    · exact reads.charTop none_
  · by_cases whole : front = []
    · rw [whole, readsTo_nil_iff] at reads
      rw [reads] at takes
      cases stack with
      | nil => exact absurd takes id
      | cons pos below =>
        obtain ⟨next, path, leaf⟩ := agreed.goesOn pos below isStack takes
        exact ⟨next, .token takes.1 takes.2 path leaf⟩
    · exact absurd takes (agreed.noTokenInside stack isStack front back found split_ whole some_ reads)

/-- In every state that a run reaches, a candidate that the mask does not reject is accepted
with stacks left, where the mask and the stacks agree on its token. -/
theorem mask_sound_when_agreed (raw : List (List Element)) (start fuel : Nat) (initial : Stacks)
    (wellFormed : WellFormed (copyRules raw))
    (accepted : initImpl raw start fuel = .done (some initial)) (grammar : GrammarState)
    (run : RunReaches (copyRules raw) initial grammar) (vocab : Vocab) (ids : List Nat)
    (maskFuel depth : Nat) (rejects : List Candidate)
    (masked : rejectCandidates (copyRules raw) maskFuel depth grammar.grammarStacks
      (grammarCandidates vocab grammar.partialUtf8 ids) = .done rejects)
    (tok : Candidate) (member : tok ∈ grammarCandidates vocab grammar.partialUtf8 ids)
    (kept : tok ∉ rejects)
    (agreed : Agreed (copyRules raw) grammar tok.id (vocab.tokenToPiece tok.id)) :
    ∃ next, next.grammarStacks ≠ [] ∧ Outcome.Settles
      (fun fuel => acceptToken (copyRules raw) fuel tok.id (vocab.tokenToPiece tok.id) grammar)
      (.returned next) := by
  obtain ⟨inside, initially⟩ := initImpl_rests wellFormed accepted
  have rests : StateRests (copyRules raw) start grammar := RunReaches.rests initially run
  obtain ⟨stack, isStack, passes⟩ :=
    rejectCandidates_passes (copyRules raw) maskFuel depth _ _ rejects masked tok member kept
  obtain ⟨found, takes⟩ := passes.takes member agreed isStack
  apply (acceptToken_returns wellFormed inside rests agreed.ends).mpr
  exact ⟨stack, isStack, found, takes⟩

/-- `root ::= "a" !<[7]>`. -/
def otherTokenTable : List (List Element) := [[⟨.char, 97⟩, ⟨.tokenNot, 7⟩, ⟨.end, 0⟩]]

/-- The piece of token 5 is `bc`, that of token 9 is `ab`, and every other piece is `a`. -/
def smallVocab : Vocab :=
  ⟨fun id => if id = 5 then [98, 99] else if id = 9 then [97, 98] else [97], fun _ => false⟩

/-- The mask lets token 9 through at the token element, after the `a` of its piece; no stack
accepts the `b` there. -/
theorem otherTokenTable_mask_unsound :
    initImpl otherTokenTable 0 4 = .done (some [[⟨0, 0⟩]]) ∧
      (∃ tok ∈ grammarCandidates smallVocab ⟨0, 0⟩ [9], tok.id = 9 ∧
        rejectCandidates (copyRules otherTokenTable) 4 4 [[⟨0, 0⟩]]
          (grammarCandidates smallVocab ⟨0, 0⟩ [9]) = .done [] ∧ tok ∉ ([] : List Candidate)) ∧
      ∀ fuel, ∃ state message, acceptToken (copyRules otherTokenTable) (fuel + 4) 9
        (smallVocab.tokenToPiece 9) ⟨[[⟨0, 0⟩]], ⟨0, 0⟩⟩ = .done (.threw state message) := by
  refine ⟨by decide, ⟨⟨0, [97, 98, 0], 0, ⟨98, 0⟩, 9⟩, by decide, rfl, by decide, not_mem_nil⟩, ?_⟩
  exact fun fuel => ⟨_, _, rfl⟩

/-- The state after the token 1, whose piece is `a`. -/
def afterLetter : GrammarState := ⟨[[⟨0, 1⟩]], ⟨97, 0⟩⟩

theorem otherTokenTable_wellFormed : WellFormed (copyRules otherTokenTable) := by
  have known : ∀ rule ∈ copyRules otherTokenTable, ∀ alternate ∈ splitAlternates rule,
      ∀ symbol ∈ symbolsOf alternate,
        symbol = .terminal [⟨.char, 97⟩] ∨ symbol = .terminal [⟨.tokenNot, 7⟩] := by decide
  refine ⟨fun rule member alternate isAlternate symbol isSymbol => ?_⟩
  rcases known rule member alternate isAlternate symbol isSymbol with same | same
  · rw [same]
    exact Or.inl ⟨rfl, rfl⟩
  · rw [same]
    exact Or.inr ⟨_, rfl, rfl⟩

theorem afterLetter_reached : RunReaches (copyRules otherTokenTable) [[⟨0, 0⟩]] afterLetter := by
  have stepped : tokenStep (copyRules otherTokenTable) ⟨[[⟨0, 0⟩]], ⟨0, 0⟩⟩ ⟨1, [97], 4⟩ =
      some afterLetter := by decide
  exact .tail .refl trivial stepped

theorem afterLetter_agreed : Agreed (copyRules otherTokenTable) afterLetter 5 [98, 99] := by
  have single : ∀ stack ∈ afterLetter.grammarStacks, stack = [⟨0, 1⟩] := by
    intro stack member
    exact mem_singleton.mp member
  -- no class is read at the token element
  have silent : ∀ chr next, ¬ Enters (copyRules otherTokenTable) chr [⟨0, 1⟩] next := by
    intro chr next enters
    cases enters with
    | char _ isChar _ => cases isChar
  refine ⟨by decide, ?_, ?_, ?_⟩
  · intro stack member front back found _ some_ _ reads
    rw [single stack member] at reads
    exact absurd (reads.charTop some_) Bool.false_ne_true
  · intro stack member
    rw [single stack member]
    constructor
    · intro front chr back mid next _ reads enters
      cases reads with
      | refl => exact absurd enters (silent chr next)
      | step first _ =>
        obtain ⟨other, here, -⟩ := first
        exact absurd here (silent _ other)
    · intro pos below same _
      cases same
      exact ⟨1, by decide⟩
  · intro pos below member _
    cases single _ member
    exact ⟨[], .refl, rfl⟩

theorem mask_sound_when_agreed_at_otherToken :
    ∃ next, next.grammarStacks ≠ [] ∧ Outcome.Settles
      (fun fuel => acceptToken (copyRules otherTokenTable) fuel 5 [98, 99] afterLetter)
      (.returned next) :=
  mask_sound_when_agreed otherTokenTable 0 4 [[⟨0, 0⟩]] otherTokenTable_wellFormed (by decide)
    afterLetter afterLetter_reached smallVocab [5] 4 4 [] (by decide)
    ⟨0, [98, 99, 0], 0, ⟨99, 0⟩, 5⟩ (by decide) not_mem_nil afterLetter_agreed

end LlamaCpp.Grammar
