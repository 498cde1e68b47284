import LlamaCpp.Lib.BestPath
import LlamaCpp.Vocab.Ugm

/-!
# Unigram tokenization

The normalized text is walked through code point by code point.  At each the tokens that begin
there challenge the best tokenization up to where they end, and so does the unknown token if no
token is the code point; the best tokenization of the text is then gathered from its end.
-/

set_option autoImplicit false

namespace LlamaCpp.Vocab

open LlamaCpp.Lib List

/-- `best_tokenization`; the label is the token id, the source the input offset. -/
abbrev BestTokenization := Cell Nat ℚ

section

variable (vocab : UgmVocab)

def ugmTokenScore (tokenId : Nat) : ℚ :=
  match vocab.idToToken[tokenId]? with
  | some token => if token.userDefined then 0 else token.score
  | none => 0

/-- The walk through the trie from a code point on; the flag is `single_codepoint_token_found`. -/
def matchTokens (inputOffset units : Nat) : Bytes → Option (NaiveTrie Nat) → Nat →
    (Nat → BestTokenization) × Bool → (Nat → BestTokenization) × Bool
  | _, none, _, state => state
  | rest, some node, prefixOffset, (results, found) =>
    let state := match node.value with
      | some tokenId =>
        (relax results ⟨inputOffset, prefixOffset, tokenId, ugmTokenScore vocab tokenId⟩,
          found || prefixOffset - inputOffset == units)
      | none => (results, found)
    match rest with
    | [] => state
    | c :: rest => matchTokens inputOffset units rest (node.traverse c) (prefixOffset + 1) state

/-- The loop over the code points; `rest` is the text from the input offset on. -/
def forwardRounds : Nat → Bytes → Nat → (Nat → BestTokenization) → Nat → BestTokenization
  | 0, _, _, results => results
  | _ + 1, [], _, results => results
  | fuel + 1, c :: rest, inputOffset, results =>
    let units := min (unicodeLenUtf8 c) (c :: rest).length
    let (results, found) := matchTokens vocab inputOffset units rest
      ((tokenMatcher vocab).traverse c) (inputOffset + 1) (results, false)
    let results := if found then results
      else relax results
        ⟨inputOffset, inputOffset + units, vocab.tokenUnk, unknownTokenScore vocab⟩
    forwardRounds fuel ((c :: rest).drop units) (inputOffset + units) results

def tokenizationResults (normalized : Bytes) : Nat → BestTokenization :=
  forwardRounds vocab normalized.length normalized 0
    fun offset => ⟨vocab.tokenUnk, 0, if offset = 0 then 0 else ⊥⟩

def gatherTokenizations (normalized : Bytes) : List BestTokenization :=
  backtrack (tokenizationResults vocab normalized) normalized.length normalized.length

def mergeUnknown : Bool → List Nat → List Nat
  | _, [] => []
  | isPrevUnknown, tokenId :: rest =>
    let isUnknown := tokenId == vocab.tokenUnk
    (if isPrevUnknown && isUnknown then [] else [tokenId]) ++ mergeUnknown isUnknown rest

/-- `llm_tokenizer_ugm_session::tokenize` behind the normalization. -/
def ugmTokenize (normalized : Bytes) : List Nat :=
  if normalized = [] then []
  else (mergeUnknown vocab false ((gatherTokenizations vocab normalized).map Cell.label)).reverse

end

inductive UgmPiece
  | token (tokenId : Nat)
  | unknown (cpt : Nat)
deriving DecidableEq

section

variable (vocab : UgmVocab)

def UgmPiece.text : UgmPiece → Bytes
  | token tokenId => ((vocab.idToToken[tokenId]?).map UgmToken.text).getD []
  | unknown cpt => utf8Bytes cpt

def UgmPiece.score : UgmPiece → ℚ
  | token tokenId => ugmTokenScore vocab tokenId
  | unknown _ => unknownTokenScore vocab

def UgmPiece.id : UgmPiece → Nat
  | token tokenId => tokenId
  | unknown _ => vocab.tokenUnk

def UgmPiece.Allowed : UgmPiece → Prop
  | token tokenId => ∃ token, vocab.idToToken[tokenId]? = some token ∧ token.isMatched = true
  | unknown cpt => ∀ token ∈ vocab.idToToken, token.isMatched = true → token.text ≠ utf8Bytes cpt

structure Segments (normalized : Bytes) (pieces : List UgmPiece) : Prop where
  allowed : ∀ piece ∈ pieces, piece.Allowed vocab
  whole : (pieces.map (UgmPiece.text vocab)).flatten = normalized

def UgmPiece.Spells : UgmPiece → List Nat → Prop
  | token tokenId, word => (token tokenId).text vocab = word.flatMap utf8Bytes
  | unknown cpt, word => word = [cpt]

structure SegmentsCpts (cpts : List Nat) (pieces : List UgmPiece) : Prop where
  allowed : ∀ piece ∈ pieces, piece.Allowed vocab
  whole : ∃ words, List.Forall₂ (UgmPiece.Spells vocab) pieces words ∧ words.flatten = cpts

def totalScore (pieces : List UgmPiece) : ℚ := (pieces.map (UgmPiece.score vocab)).sum

def placed : Nat → List UgmPiece → List (Nat × Nat)
  | _, [] => []
  | offset, piece :: rest =>
    (piece.id vocab, offset) :: placed (offset + (piece.text vocab).length) rest

end

section

variable (vocab : UgmVocab)

def tokenEdges (inputOffset : Nat) : Bytes → Option (NaiveTrie Nat) → Nat → List (Edge Nat ℚ)
  | _, none, _ => []
  | rest, some node, prefixOffset =>
    (node.value.toList.map fun tokenId =>
      ⟨inputOffset, prefixOffset, tokenId, ugmTokenScore vocab tokenId⟩) ++
    match rest with
    | [] => []
    | c :: rest => tokenEdges inputOffset rest (node.traverse c) (prefixOffset + 1)

def cptEdges (inputOffset : Nat) : Bytes → List (Edge Nat ℚ)
  | [] => []
  | c :: rest =>
    let units := min (unicodeLenUtf8 c) (c :: rest).length
    let tokens :=
      tokenEdges vocab inputOffset rest ((tokenMatcher vocab).traverse c) (inputOffset + 1)
    tokens ++
      if tokens.any fun edge => edge.target - inputOffset == units then []
      else [⟨inputOffset, inputOffset + units, vocab.tokenUnk, unknownTokenScore vocab⟩]

def textEdges : Nat → Bytes → Nat → List (Edge Nat ℚ)
  | 0, _, _ => []
  | _ + 1, [], _ => []
  | fuel + 1, c :: rest, inputOffset =>
    let units := min (unicodeLenUtf8 c) (c :: rest).length
    cptEdges vocab inputOffset (c :: rest) ++
      textEdges fuel ((c :: rest).drop units) (inputOffset + units)

end

section

variable {vocab : UgmVocab}

theorem matchTokens_eq (inputOffset units : Nat) (rest : Bytes) (node : Option (NaiveTrie Nat))
    (prefixOffset : Nat) (results : Nat → BestTokenization) (found : Bool) :
    matchTokens vocab inputOffset units rest node prefixOffset (results, found) =
      ((tokenEdges vocab inputOffset rest node prefixOffset).foldl relax results,
        found || (tokenEdges vocab inputOffset rest node prefixOffset).any
          fun edge => edge.target - inputOffset == units) := by
  induction rest generalizing node prefixOffset results found with
  | nil =>
    cases node with
    | none => simp [matchTokens, tokenEdges]
    | some node => cases value : node.value <;> simp [matchTokens, tokenEdges, value]
  | cons c rest ih =>
    cases node with
    | none => simp [matchTokens, tokenEdges]
    | some node =>
      cases value : node.value with
      | none => simp [matchTokens, tokenEdges, value, ih]
      | some tokenId => simp [matchTokens, tokenEdges, value, ih, Bool.or_assoc]

theorem forwardRounds_eq (fuel : Nat) (rest : Bytes) (inputOffset : Nat)
    (results : Nat → BestTokenization) :
    forwardRounds vocab fuel rest inputOffset results =
      (textEdges vocab fuel rest inputOffset).foldl relax results := by
  induction fuel generalizing rest inputOffset results with
  | zero => rfl
  | succ fuel ih =>
    cases rest with
    | nil => rfl
    | cons c rest =>
      rw [forwardRounds, textEdges, matchTokens_eq]
      simp only [Bool.false_or, ih, cptEdges, foldl_append]
      split
      · rfl
      · rfl

theorem mem_tokenEdges (inputOffset : Nat) (rest : Bytes) (node : Option (NaiveTrie Nat))
    (prefixOffset : Nat) (edge : Edge Nat ℚ) :
    edge ∈ tokenEdges vocab inputOffset rest node prefixOffset ↔
      ∃ n tokenId, n ≤ rest.length ∧
        (node.bind fun start => start.valueAt (rest.take n)) = some tokenId ∧
          edge = ⟨inputOffset, prefixOffset + n, tokenId, ugmTokenScore vocab tokenId⟩ := by
  induction rest generalizing node prefixOffset with
  | nil =>
    cases node with
    | none => simp [tokenEdges]
    | some node => simp [tokenEdges, NaiveTrie.valueAt, eq_comm]
  | cons c rest ih =>
    cases node with
    | none => simp [tokenEdges]
    | some node =>
      have later (n : Nat) : node.valueAt ((c :: rest).take (n + 1)) =
          (node.traverse c).bind fun start => start.valueAt (rest.take n) := by
        rw [take_succ_cons, NaiveTrie.valueAt, NaiveTrie.descend_cons, Option.bind_assoc]
        rfl
      rw [tokenEdges, mem_append, ih]
      constructor
      · rintro (here | ⟨n, tokenId, inside, value, rfl⟩)
        · obtain ⟨tokenId, value, rfl⟩ := mem_map.mp here
          exact ⟨0, tokenId, Nat.zero_le _, Option.mem_toList.mp value, rfl⟩
        · refine ⟨n + 1, tokenId, Nat.succ_le_succ inside, ?_, ?_⟩
          · rw [Option.bind_some, later, value]
          · rw [Nat.add_assoc, Nat.add_comm 1]
      · rintro ⟨n, tokenId, inside, value, rfl⟩
        rw [Option.bind_some] at value
        cases n with
        | zero => exact .inl (mem_map.mpr ⟨tokenId, Option.mem_toList.mpr value, rfl⟩)
        | succ n =>
          rw [later] at value
          refine .inr ⟨n, tokenId, Nat.le_of_succ_le_succ inside, value, ?_⟩
          rw [Nat.add_assoc, Nat.add_comm 1]

theorem mem_matchedEntries (entry : Bytes × Nat) :
    entry ∈ matchedEntries vocab ↔
      ∃ token, vocab.idToToken[entry.2]? = some token ∧ token.isMatched = true ∧
        token.text = entry.1 := by
  rw [matchedEntries, mem_filterMap]
  constructor
  · rintro ⟨⟨token, tokenId⟩, member, kept⟩
    have found := mem_zipIdx_iff_getElem?.mp member
    split at kept
    · rename_i matched
      cases kept
      exact ⟨token, found, matched, rfl⟩
    · contradiction
  · rintro ⟨token, found, matched, text⟩
    refine ⟨(token, entry.2), mem_zipIdx_iff_getElem?.mpr found, ?_⟩
    rw [if_pos matched, text]

theorem tokenId_unique {token other : UgmToken} {tokenId otherId : Nat}
    (found : vocab.idToToken[tokenId]? = some token)
    (otherFound : vocab.idToToken[otherId]? = some other) (same : token.text = other.text) :
    tokenId = otherId := by
  have inside := (List.getElem?_eq_some_iff.mp found).1
  refine (List.getElem?_inj (by rwa [length_map]) vocab.distinct).mp ?_
  rw [List.getElem?_map, List.getElem?_map, found, otherFound, Option.map_some, Option.map_some,
    same]

theorem valueAt_tokenMatcher (key : Bytes) (tokenId : Nat) :
    (tokenMatcher vocab).valueAt key = some tokenId ↔
      ∃ token, vocab.idToToken[tokenId]? = some token ∧ token.isMatched = true ∧
        token.text = key := by
  rw [tokenMatcher, NaiveTrie.valueAt_ofEntries, ← mem_matchedEntries (key, tokenId)]
  constructor
  · exact NaiveTrie.mem_of_lastValue
  · intro member
    obtain ⟨value, last⟩ := Option.isSome_iff_exists.mp
      ((NaiveTrie.lastValue_isSome _ key).mpr ⟨_, member, rfl⟩)
    obtain ⟨token, found, -, text⟩ := (mem_matchedEntries _).mp member
    obtain ⟨other, otherFound, -, otherText⟩ :=
      (mem_matchedEntries _).mp (NaiveTrie.mem_of_lastValue last)
    rw [last, Option.some.injEq]
    exact tokenId_unique otherFound found (otherText.trans text.symm)

theorem cptEdges_forward (inputOffset : Nat) (rest : Bytes) :
    ∀ edge ∈ cptEdges vocab inputOffset rest,
      edge.source = inputOffset ∧ inputOffset < edge.target := by
  intro edge member
  cases rest with
  | nil => contradiction
  | cons c rest =>
    rw [cptEdges, mem_append] at member
    rcases member with token | unknown
    · obtain ⟨n, tokenId, -, -, rfl⟩ := (mem_tokenEdges ..).mp token
      exact ⟨rfl, by simp only; omega⟩
    · split at unknown
      · contradiction
      · cases mem_singleton.mp unknown
        have pos := unicodeLenUtf8_pos c
        refine ⟨rfl, ?_⟩
        simp only [length_cons]
        omega

theorem scheduled_of_one_source {edges : List (Edge Nat ℚ)} {inputOffset : Nat}
    (forward : ∀ edge ∈ edges, edge.source = inputOffset ∧ inputOffset < edge.target) :
    Scheduled edges := by
  constructor
  · intro edge member
    obtain ⟨source, before⟩ := forward edge member
    omega
  · refine pairwise_of_forall_mem_list fun edge member later behind => ?_
    have source := (forward edge member).1
    have before := (forward later behind).2
    omega

theorem textEdges_source (fuel : Nat) (rest : Bytes) (inputOffset : Nat) :
    ∀ edge ∈ textEdges vocab fuel rest inputOffset, inputOffset ≤ edge.source := by
  induction fuel generalizing rest inputOffset with
  | zero =>
    intro edge member
    contradiction
  | succ fuel ih =>
    cases rest with
    | nil =>
      intro edge member
      contradiction
    | cons c rest =>
      intro edge member
      rw [textEdges, mem_append] at member
      rcases member with here | later
      · exact Nat.le_of_eq (cptEdges_forward _ _ edge here).1.symm
      · exact Nat.le_trans (Nat.le_add_right _ _) (ih _ _ edge later)

theorem textEdges_scheduled (fuel : Nat) (rest : Bytes) (inputOffset : Nat) :
    Scheduled (textEdges vocab fuel rest inputOffset) := by
  induction fuel generalizing rest inputOffset with
  | zero => exact ⟨fun edge member => by contradiction, List.Pairwise.nil⟩
  | succ fuel ih =>
    cases rest with
    | nil => exact ⟨fun edge member => by contradiction, List.Pairwise.nil⟩
    | cons c rest =>
      have forward := @cptEdges_forward vocab inputOffset (c :: rest)
      refine scheduled_append (scheduled_of_one_source forward) (ih _ _) ?_
      intro edge here other later
      have source := (forward edge here).1
      have from_ := textEdges_source _ _ _ other later
      have target := (ih _ _).forward other later
      omega

theorem mem_cptEdges (inputOffset cpt : Nat) (back : Bytes) (edge : Edge Nat ℚ) :
    edge ∈ cptEdges vocab inputOffset (utf8Bytes cpt ++ back) ↔
      (∃ tokenId token, vocab.idToToken[tokenId]? = some token ∧ token.isMatched = true ∧
        token.text <+: utf8Bytes cpt ++ back ∧
          edge = ⟨inputOffset, inputOffset + token.text.length, tokenId,
            ugmTokenScore vocab tokenId⟩) ∨
      ((UgmPiece.unknown cpt).Allowed vocab ∧
        edge = ⟨inputOffset, inputOffset + (utf8Bytes cpt).length, vocab.tokenUnk,
          unknownTokenScore vocab⟩) := by
  have lead := unicodeLenUtf8_utf8Bytes cpt
  obtain ⟨c, more, bytes⟩ := exists_cons_of_ne_nil (utf8Bytes_ne_nil cpt)
  rw [bytes, headD_cons] at lead
  rw [bytes, cons_append]
  have units : min (unicodeLenUtf8 c) (c :: (more ++ back)).length = (c :: more).length := by
    rw [lead, length_cons, length_cons, length_append]
    omega
  have tokens (edge : Edge Nat ℚ) :
      edge ∈ tokenEdges vocab inputOffset (more ++ back) ((tokenMatcher vocab).traverse c)
          (inputOffset + 1) ↔
        ∃ tokenId token, vocab.idToToken[tokenId]? = some token ∧ token.isMatched = true ∧
          token.text <+: c :: (more ++ back) ∧
            edge = ⟨inputOffset, inputOffset + token.text.length, tokenId,
              ugmTokenScore vocab tokenId⟩ := by
    have value (n : Nat) : (((tokenMatcher vocab).traverse c).bind fun start =>
        start.valueAt ((more ++ back).take n)) =
          (tokenMatcher vocab).valueAt (c :: (more ++ back).take n) := by
      rw [NaiveTrie.valueAt, NaiveTrie.descend_cons, Option.bind_assoc]
      rfl
    rw [mem_tokenEdges]
    constructor
    · rintro ⟨n, tokenId, inside, found, rfl⟩
      rw [value, valueAt_tokenMatcher] at found
      obtain ⟨token, known, matched, text⟩ := found
      refine ⟨tokenId, token, known, matched, ?_, ?_⟩
      · rw [text, cons_prefix_cons]
        exact ⟨rfl, take_prefix _ _⟩
      · rw [text, length_cons, length_take, min_eq_left inside, add_assoc,
          add_comm 1]
    · rintro ⟨tokenId, token, known, matched, begins, rfl⟩
      obtain ⟨d, rest, text⟩ := exists_cons_of_ne_nil
        (vocab.nonempty token (mem_of_getElem? known))
      rw [text, cons_prefix_cons] at begins
      obtain ⟨rfl, begins⟩ := begins
      refine ⟨rest.length, tokenId, begins.length_le, ?_, ?_⟩
      · rw [value, valueAt_tokenMatcher, ← prefix_iff_eq_take.mp begins]
        exact ⟨token, known, matched, text⟩
      · rw [text, length_cons, add_assoc, add_comm 1]
  -- a token as long as the code point is the code point
  have single : (tokenEdges vocab inputOffset (more ++ back) ((tokenMatcher vocab).traverse c)
      (inputOffset + 1)).any (fun edge => edge.target - inputOffset == (c :: more).length) = true ↔
        ¬ (UgmPiece.unknown cpt).Allowed vocab := by
    rw [any_eq_true, UgmPiece.Allowed]
    constructor
    · rintro ⟨edge, member, long⟩ none_
      obtain ⟨tokenId, token, known, matched, begins, rfl⟩ := (tokens edge).mp member
      rw [beq_iff_eq, Nat.add_sub_cancel_left] at long
      refine none_ token (mem_of_getElem? known) matched ?_
      rw [bytes, prefix_iff_eq_take.mp begins, long, ← cons_append, take_left]
    · intro some_
      push Not at some_
      obtain ⟨token, member, matched, text⟩ := some_
      obtain ⟨tokenId, known⟩ := List.getElem?_of_mem member
      rw [bytes] at text
      refine ⟨_, (tokens _).mpr ⟨tokenId, token, known, matched, ?_, rfl⟩, ?_⟩
      · rw [text]
        exact prefix_append _ _
      · rw [beq_iff_eq, Nat.add_sub_cancel_left, text]
  rw [cptEdges, mem_append, tokens, units]
  refine or_congr_right ?_
  split
  · rename_i found
    exact iff_of_false not_mem_nil fun unknown => single.mp found unknown.1
  · rename_i none_
    rw [mem_singleton, and_iff_right (by_contra fun known => none_ (single.mpr known))]

def utf8Length (cpts : List Nat) : Nat := (cpts.flatMap utf8Bytes).length

theorem utf8Length_append (cpts more : List Nat) :
    utf8Length (cpts ++ more) = utf8Length cpts + utf8Length more := by
  rw [utf8Length, flatMap_append, length_append, utf8Length, utf8Length]

theorem utf8Length_cons (cpt : Nat) (more : List Nat) :
    utf8Length (cpt :: more) = (utf8Bytes cpt).length + utf8Length more := by
  rw [utf8Length, flatMap_cons, length_append, utf8Length]

variable {cpts front rest : List Nat}

theorem utf8Length_eq_zero (none_ : utf8Length cpts = 0) : cpts = [] := by
  cases cpts with
  | nil => rfl
  | cons cpt more =>
    have pos := length_pos_iff.mpr (utf8Bytes_ne_nil cpt)
    rw [utf8Length_cons] at none_
    omega

theorem exists_between {back front' back' : List Nat} (same : front ++ back = front' ++ back')
    (before : utf8Length front ≤ utf8Length front') :
    ∃ word, front' = front ++ word ∧ back = word ++ back' := by
  rcases append_eq_append_iff.mp same with ⟨word, split, rest⟩ | ⟨word, split, rest⟩
  · exact ⟨word, split, rest⟩
  · have nothing : word = [] := by
      rw [split, utf8Length_append] at before
      exact utf8Length_eq_zero (by omega)
    subst nothing
    rw [append_nil] at split
    exact ⟨[], by rw [split, append_nil], rest.symm⟩

theorem textEdges_cons (fuel inputOffset cpt : Nat) (back : Bytes) :
    textEdges vocab (fuel + 1) (utf8Bytes cpt ++ back) inputOffset =
      cptEdges vocab inputOffset (utf8Bytes cpt ++ back) ++
        textEdges vocab fuel back (inputOffset + (utf8Bytes cpt).length) := by
  have lead := unicodeLenUtf8_utf8Bytes cpt
  obtain ⟨c, more, bytes⟩ := exists_cons_of_ne_nil (utf8Bytes_ne_nil cpt)
  rw [bytes, headD_cons] at lead
  rw [bytes, cons_append]
  have units : min (unicodeLenUtf8 c) (c :: (more ++ back)).length = (c :: more).length := by
    rw [lead, length_cons, length_cons, length_append]
    omega
  rw [textEdges, units, ← cons_append, drop_left]

theorem mem_textEdges {fuel : Nat} (enough : cpts.length ≤ fuel) (inputOffset : Nat)
    (edge : Edge Nat ℚ) : edge ∈ textEdges vocab fuel (cpts.flatMap utf8Bytes) inputOffset ↔
      ∃ front cpt back, cpts = front ++ cpt :: back ∧
        edge ∈ cptEdges vocab (inputOffset + utf8Length front)
          ((cpt :: back).flatMap utf8Bytes) := by
  induction cpts generalizing fuel inputOffset with
  | nil =>
    have none_ : textEdges vocab fuel [] inputOffset = [] := by cases fuel <;> rfl
    rw [flatMap_nil, none_]
    simp
  | cons first rest ih =>
    rw [length_cons] at enough
    obtain ⟨fuel, rfl⟩ : ∃ less, fuel = less + 1 := ⟨fuel - 1, by omega⟩
    rw [flatMap_cons, textEdges_cons, mem_append, ih (by omega)]
    constructor
    · rintro (here | ⟨front, cpt, back, split, member⟩)
      · exact ⟨[], first, rest, rfl, here⟩
      · refine ⟨first :: front, cpt, back, by rw [split, cons_append], ?_⟩
        rwa [utf8Length_cons, ← add_assoc]
    · rintro ⟨front, cpt, back, split, member⟩
      cases front with
      | nil =>
        cases split
        exact .inl member
      | cons head front =>
        cases split
        rw [utf8Length_cons, ← add_assoc] at member
        exact .inr ⟨front, cpt, back, rfl, member⟩

def tokenizationEdges (vocab : UgmVocab) (cpts : List Nat) : List (Edge Nat ℚ) :=
  textEdges vocab (utf8Length cpts) (cpts.flatMap utf8Bytes) 0

def tokenEdge (vocab : UgmVocab) (offset tokenId length : Nat) : Edge Nat ℚ :=
  ⟨offset, offset + length, tokenId, ugmTokenScore vocab tokenId⟩

def unknownEdge (vocab : UgmVocab) (offset cpt : Nat) : Edge Nat ℚ :=
  ⟨offset, offset + (utf8Bytes cpt).length, vocab.tokenUnk, unknownTokenScore vocab⟩

theorem mem_tokenizationEdges (cpts : List Nat) (edge : Edge Nat ℚ) :
    edge ∈ tokenizationEdges vocab cpts ↔
      ∃ front cpt back, cpts = front ++ cpt :: back ∧
        ((∃ tokenId token, vocab.idToToken[tokenId]? = some token ∧ token.isMatched = true ∧
          token.text <+: (cpt :: back).flatMap utf8Bytes ∧
            edge = tokenEdge vocab (utf8Length front) tokenId token.text.length) ∨
        ((UgmPiece.unknown cpt).Allowed vocab ∧
          edge = unknownEdge vocab (utf8Length front) cpt)) := by
  have enough : cpts.length ≤ utf8Length cpts := length_le_flatMap_utf8Bytes cpts
  rw [tokenizationEdges, mem_textEdges enough]
  refine exists_congr fun front => exists_congr fun cpt => exists_congr fun back => ?_
  rw [flatMap_cons, mem_cptEdges, zero_add]
  rfl

theorem text_token {tokenId : Nat} {token : UgmToken}
    (found : vocab.idToToken[tokenId]? = some token) :
    (UgmPiece.token tokenId).text vocab = token.text := by
  rw [UgmPiece.text, found]
  rfl

theorem exists_edge {word : List Nat} {piece : UgmPiece} (split : cpts = front ++ (word ++ rest))
    (allowed : piece.Allowed vocab) (spells : piece.Spells vocab word) :
    ∃ edge ∈ tokenizationEdges vocab cpts, edge.source = utf8Length front ∧
      edge.target = utf8Length (front ++ word) ∧ edge.weight = piece.score vocab := by
  cases piece with
  | token tokenId =>
    obtain ⟨token, found, matched⟩ := allowed
    have text : token.text = word.flatMap utf8Bytes := (text_token found).symm.trans spells
    cases word with
    | nil => exact absurd text (vocab.nonempty token (mem_of_getElem? found))
    | cons cpt word =>
      refine ⟨tokenEdge vocab (utf8Length front) tokenId token.text.length, ?_, rfl, ?_, rfl⟩
      · refine (mem_tokenizationEdges cpts _).mpr ⟨front, cpt, word ++ rest, split, .inl ?_⟩
        refine ⟨tokenId, token, found, matched, ?_, rfl⟩
        rw [text, ← cons_append, flatMap_append]
        exact prefix_append _ _
      · rw [tokenEdge, utf8Length_append, text, utf8Length, utf8Length]
  | unknown cpt =>
    obtain rfl : word = [cpt] := spells
    refine ⟨unknownEdge vocab (utf8Length front) cpt, ?_, rfl, ?_, rfl⟩
    · exact (mem_tokenizationEdges cpts _).mpr ⟨front, cpt, rest, split, .inr ⟨allowed, rfl⟩⟩
    · rw [utf8Length_append, utf8Length_cons]
      rfl

theorem exists_path {pieces : List UgmPiece} {words : List (List Nat)}
    (split : cpts = front ++ rest) (allowed : ∀ piece ∈ pieces, piece.Allowed vocab)
    (spells : List.Forall₂ (UgmPiece.Spells vocab) pieces words) (whole : words.flatten = rest) :
    ∃ path, IsPath (tokenizationEdges vocab cpts) (utf8Length front) path (utf8Length cpts) ∧
      pathWeight path = totalScore vocab pieces := by
  induction spells generalizing front rest with
  | nil =>
    subst whole
    rw [flatten_nil, append_nil] at split
    exact ⟨[], by rw [split]; rfl, rfl⟩
  | @cons piece word pieces words here _ ih =>
    subst whole
    rw [flatten_cons] at split
    obtain ⟨edge, member, source, target, weight⟩ :=
      exists_edge split (allowed piece mem_cons_self) here
    obtain ⟨path, isPath, total⟩ := @ih (front ++ word) _ (by rw [split, append_assoc])
      (fun other behind => allowed other (mem_cons_of_mem _ behind)) rfl
    refine ⟨edge :: path, ⟨member, source, ?_⟩, ?_⟩
    · rwa [target]
    · rw [pathWeight, map_cons, weight, totalScore, sum_cons]
      exact congrArg (_ + ·) total

theorem boundary_of_isPath {path : List (Edge Nat ℚ)} {offset : Nat}
    (isPath : IsPath (tokenizationEdges vocab cpts) offset path (utf8Length cpts)) :
    ∃ front back, cpts = front ++ back ∧ offset = utf8Length front := by
  cases path with
  | nil => exact ⟨cpts, [], (append_nil _).symm, isPath⟩
  | cons edge rest =>
    obtain ⟨member, source, -⟩ := isPath
    obtain ⟨front, cpt, back, split, token | unknown⟩ := (mem_tokenizationEdges cpts _).mp member
    · obtain ⟨tokenId, token, -, -, -, rfl⟩ := token
      exact ⟨front, cpt :: back, split, source.symm⟩
    · obtain ⟨-, rfl⟩ := unknown
      exact ⟨front, cpt :: back, split, source.symm⟩

theorem exists_piece {front' back' : List Nat} {edge : Edge Nat ℚ} (split : cpts = front ++ rest)
    (member : edge ∈ tokenizationEdges vocab cpts) (source : edge.source = utf8Length front)
    (split' : cpts = front' ++ back') (target : edge.target = utf8Length front') :
    ∃ (piece : UgmPiece) (word : List Nat), front' = front ++ word ∧ rest = word ++ back' ∧
      piece.Allowed vocab ∧ piece.Spells vocab word ∧ edge.label = piece.id vocab ∧
        edge.weight = piece.score vocab := by
  obtain ⟨start, cpt, back, splitAt, kind⟩ := (mem_tokenizationEdges cpts _).mp member
  have sameOffset : utf8Length start = utf8Length front := by
    rw [← source]
    rcases kind with ⟨tokenId, token, -, -, -, rfl⟩ | ⟨-, rfl⟩ <;> rfl
  have here : front = start ∧ rest = cpt :: back := by
    obtain ⟨none_, longer, behind⟩ :=
      exists_between (splitAt.symm.trans split) (le_of_eq sameOffset)
    rw [longer, utf8Length_append] at sameOffset
    obtain rfl := @utf8Length_eq_zero none_ (by omega)
    exact ⟨by rw [longer, append_nil], behind.symm⟩
  obtain ⟨rfl, rfl⟩ := here
  obtain ⟨word, longer, behind⟩ : ∃ word, front' = front ++ word ∧ cpt :: back = word ++ back' := by
    refine exists_between (split.symm.trans split') ?_
    rw [← source, ← target]
    exact le_of_lt ((textEdges_scheduled _ _ _).forward edge member)
  have length : edge.target = utf8Length front + utf8Length word := by
    rw [target, longer, utf8Length_append]
  rcases kind with ⟨tokenId, token, found, matched, begins, rfl⟩ | ⟨allowed, rfl⟩
  · refine ⟨.token tokenId, word, longer, behind, ⟨token, found, matched⟩, ?_, rfl, rfl⟩
    rw [tokenEdge, Nat.add_left_cancel_iff] at length
    rw [behind, flatMap_append] at begins
    rw [UgmPiece.Spells, text_token found]
    exact (prefix_of_prefix_length_le begins (prefix_append _ _)
      (le_of_eq length)).eq_of_length length
  · refine ⟨.unknown cpt, word, longer, behind, allowed, ?_, rfl, rfl⟩
    rw [unknownEdge, Nat.add_left_cancel_iff] at length
    cases word with
    | nil => exact absurd (length_eq_zero_iff.mp length) (utf8Bytes_ne_nil cpt)
    | cons first others =>
      obtain ⟨rfl, -⟩ := List.cons.inj behind
      rw [utf8Length_cons] at length
      rw [@utf8Length_eq_zero others (by omega)]
      rfl

theorem length_text_of_spells {piece : UgmPiece} {word : List Nat}
    (spells : piece.Spells vocab word) : (piece.text vocab).length = utf8Length word := by
  cases piece with
  | token tokenId => exact congrArg List.length spells
  | unknown cpt =>
    obtain rfl : word = [cpt] := spells
    rw [utf8Length_cons]
    rfl

theorem exists_pieces {path : List (Edge Nat ℚ)} (split : cpts = front ++ rest)
    (isPath : IsPath (tokenizationEdges vocab cpts) (utf8Length front) path (utf8Length cpts)) :
    ∃ pieces, SegmentsCpts vocab rest pieces ∧ totalScore vocab pieces = pathWeight path ∧
      placed vocab (utf8Length front) pieces = path.map fun edge => (edge.label, edge.source) := by
  induction path generalizing front rest with
  | nil =>
    have nothing : rest = [] := by
      have same : utf8Length front = utf8Length cpts := isPath
      rw [split, utf8Length_append] at same
      exact utf8Length_eq_zero (by omega)
    subst nothing
    exact ⟨[], ⟨fun piece member => by contradiction, [], .nil, rfl⟩, rfl, rfl⟩
  | cons edge path ih =>
    obtain ⟨member, source, later⟩ := isPath
    obtain ⟨front', back', split', target⟩ := boundary_of_isPath later
    obtain ⟨piece, word, rfl, behind, allowed, spells, label, weight⟩ :=
      exists_piece split member source split' target
    rw [target] at later
    obtain ⟨pieces, ⟨others, words, spelled, whole⟩, total, places⟩ := ih split' later
    refine ⟨piece :: pieces, ⟨?_, word :: words, .cons spells spelled, ?_⟩, ?_, ?_⟩
    · exact forall_mem_cons.mpr ⟨allowed, others⟩
    · rw [flatten_cons, whole, behind]
    · rw [totalScore, map_cons, ← weight, pathWeight, sum_cons]
      exact congrArg (_ + ·) total
    · rw [placed, length_text_of_spells spells, ← utf8Length_append, places, map_cons, label,
        source]

theorem exists_segmentsCpts (vocab : UgmVocab) (cpts : List Nat) :
    ∃ pieces, SegmentsCpts vocab cpts pieces := by
  induction cpts with
  | nil => exact ⟨[], fun piece member => by contradiction, [], .nil, rfl⟩
  | cons cpt rest ih =>
    obtain ⟨pieces, allowed, words, spells, whole⟩ := ih
    by_cases unknown : (UgmPiece.unknown cpt).Allowed vocab
    · exact ⟨.unknown cpt :: pieces, forall_mem_cons.mpr ⟨unknown, allowed⟩,
        [cpt] :: words, .cons rfl spells, by rw [flatten_cons, whole]; rfl⟩
    · rw [UgmPiece.Allowed] at unknown
      push Not at unknown
      obtain ⟨token, member, matched, text⟩ := unknown
      obtain ⟨tokenId, found⟩ := List.getElem?_of_mem member
      refine ⟨.token tokenId :: pieces,
        forall_mem_cons.mpr ⟨⟨token, found, matched⟩, allowed⟩, [cpt] :: words,
        .cons ?_ spells, by rw [flatten_cons, whole]; rfl⟩
      rw [UgmPiece.Spells, text_token found, text, flatMap_singleton]

theorem tokenizationResults_eq (vocab : UgmVocab) (cpts : List Nat) :
    tokenizationResults vocab (cpts.flatMap utf8Bytes) =
      (tokenizationEdges vocab cpts).foldl relax
        fun offset => ⟨vocab.tokenUnk, 0, if offset = 0 then 0 else ⊥⟩ :=
  forwardRounds_eq _ _ _ _

/-- The tokenization is the best of those that keep code points whole. -/
theorem gatherTokenizations_best (vocab : UgmVocab) {cpts : List Nat} (some_ : cpts ≠ []) :
    ∃ pieces, SegmentsCpts vocab cpts pieces ∧
      (gatherTokenizations vocab (cpts.flatMap utf8Bytes)).map
          (fun tokenization => (tokenization.label, tokenization.source)) =
        (placed vocab 0 pieces).reverse ∧
      ∀ other, SegmentsCpts vocab cpts other →
        totalScore vocab other ≤ totalScore vocab pieces := by
  have scheduled : Scheduled (tokenizationEdges vocab cpts) := textEdges_scheduled _ _ _
  have explains : Explains (tokenizationEdges vocab cpts)
      (tokenizationResults vocab (cpts.flatMap utf8Bytes)) := by
    rw [tokenizationResults_eq]
    exact explains_foldl scheduled rfl fun position behind => if_neg behind
  have bound (other : List UgmPiece) (segments : SegmentsCpts vocab cpts other) :
      ((totalScore vocab other : ℚ) : WithBot ℚ) ≤
        (tokenizationResults vocab (cpts.flatMap utf8Bytes) (utf8Length cpts)).score := by
    obtain ⟨words, spells, whole⟩ := segments.whole
    obtain ⟨path, isPath, total⟩ :=
      @exists_path _ _ [] _ _ _ (nil_append cpts).symm segments.allowed spells whole
    rw [← total]
    exact explains.weight_le isPath
  obtain ⟨some_way, isWay⟩ := exists_segmentsCpts vocab cpts
  have reached : (tokenizationResults vocab (cpts.flatMap utf8Bytes) (utf8Length cpts)).score ≠ ⊥ :=
    fun none_ => WithBot.not_coe_le_bot _ (none_ ▸ bound some_way isWay)
  have behind : utf8Length cpts ≠ 0 := fun none_ => some_ (utf8Length_eq_zero none_)
  obtain ⟨path, isPath, weight, back⟩ :=
    explains.backtrack scheduled.forward (le_refl _) behind reached
  obtain ⟨pieces, segments, total, places⟩ :=
    @exists_pieces _ _ [] _ _ (nil_append cpts).symm isPath
  refine ⟨pieces, segments, ?_, fun other segmentsOther => ?_⟩
  · rw [show placed vocab 0 pieces = _ from places]
    exact back
  · have better := bound other segmentsOther
    rw [← weight, ← total] at better
    exact WithBot.coe_le_coe.mp better

end

/-- Tokens for both bytes of `é`. -/
def halvesVocab : UgmVocab where
  idToToken := [⟨[0x61], -1, true, false, false⟩, ⟨[0xC3], -1, true, false, false⟩,
    ⟨[0xA9], -1, true, false, false⟩]
  tokenUnk := 3
  escapeWhitespaces := true
  addSpacePrefix := true
  removeExtraWhitespaces := true
  treatWhitespaceAsSuffix := false
  nonempty := by decide
  distinct := by decide

/-- A token that ends inside a code point is never followed by another. -/
theorem gatherTokenizations_skips_halves :
    (gatherTokenizations halvesVocab (utf8Bytes 0xE9)).map
        (fun tokenization => (tokenization.label, tokenization.source)) =
        (placed halvesVocab 0 [.unknown 0xE9]).reverse ∧
      Segments halvesVocab (utf8Bytes 0xE9) [.token 1, .token 2] ∧
      totalScore halvesVocab [.unknown 0xE9] < totalScore halvesVocab [.token 1, .token 2] := by
  refine ⟨by decide +kernel, ⟨fun piece member => ?_, by decide⟩, by decide +kernel⟩
  rcases mem_cons.mp member with rfl | second
  · exact ⟨_, rfl, rfl⟩
  · rw [mem_singleton.mp second]
    exact ⟨_, rfl, rfl⟩

theorem gatherTokenizations_best_at_a :
    ∃ pieces, SegmentsCpts halvesVocab [0x61] pieces ∧
      (gatherTokenizations halvesVocab ([0x61].flatMap utf8Bytes)).map
          (fun tokenization => (tokenization.label, tokenization.source)) =
        (placed halvesVocab 0 pieces).reverse ∧
      ∀ other, SegmentsCpts halvesVocab [0x61] other →
        totalScore halvesVocab other ≤ totalScore halvesVocab pieces :=
  gatherTokenizations_best halvesVocab (by decide)

end LlamaCpp.Vocab
