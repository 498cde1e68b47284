import LlamaCpp.Vocab.BpeMerge

/-!
# Round trips

A text without special tokens is tokenized into tokens whose pieces are the text, and detokenizing
writes the pieces in a row.
-/

set_option autoImplicit false

namespace LlamaCpp.Vocab

open LlamaCpp.Lib List

section

variable {vocab : BpeVocab}

def FreeOfSpecial (vocab : BpeVocab) (text : Bytes) : Prop :=
  ∀ id ∈ vocab.cacheSpecialTokens, ∀ special, vocab.idToToken[id]? = some special →
    ¬ special.text <:+: text

variable {text : Bytes}

theorem partitionText_absent {special : TokenData} (absent : ¬ special.text <:+: text)
    (some_ : text ≠ []) (token fuel : Nat) :
    partitionText token special fuel text = [.rawText text] := by
  cases fuel with
  | zero => rfl
  | succ fuel =>
    rw [partitionText]
    cases found : findText special.text text with
    | none => rw [if_neg some_]
    | some pos => exact absurd (infix_of_findText found) absent

theorem partitionBy_absent {token : Nat} (free : FreeOfSpecial vocab text) (some_ : text ≠ [])
    (member : token ∈ vocab.cacheSpecialTokens) (parseSpecial : Bool) :
    partitionBy vocab parseSpecial [.rawText text] token = [.rawText text] := by
  rw [partitionBy]
  cases read : vocab.idToToken[token]? with
  | none => rfl
  | some special =>
    dsimp only
    split
    · rfl
    · rw [flatMap_singleton]
      exact partitionText_absent (free token member special read) some_ ..

theorem tokenizerStPartition_free (free : FreeOfSpecial vocab text) (some_ : text ≠ [])
    (parseSpecial : Bool) :
    tokenizerStPartition vocab parseSpecial [.rawText text] = [.rawText text] := by
  have tokens (ids : List Nat) (special : ∀ id ∈ ids, id ∈ vocab.cacheSpecialTokens) :
      ids.foldl (partitionBy vocab parseSpecial) [.rawText text] = [.rawText text] := by
    induction ids with
    | nil => rfl
    | cons id rest ih =>
      rw [foldl_cons, partitionBy_absent free some_ (special id mem_cons_self)]
      exact ih fun other member => special other (mem_cons_of_mem _ member)
  exact tokens _ fun _ member => member

def IsPiece (vocab : BpeVocab) (id : Nat) (piece : Bytes) : Prop :=
  ∃ token, vocab.idToToken[id]? = some token ∧ token.text = encodeBytes piece ∧
    token.attr.normal = true ∧ token.attr.isSpecial = false

theorem symbolTokens_piece {piece : Bytes} (known : IsToken vocab (encodeBytes piece)) :
    ∃ id, symbolTokens vocab (encodeBytes piece) = [id] ∧ IsPiece vocab id piece := by
  obtain ⟨id, token, found, read, normal, plain⟩ := known
  refine ⟨id, by rw [symbolTokens, found], token, read, ?_, normal, plain⟩
  have text := vocab.text_of_id _ _ found
  rw [read] at text
  exact Option.some.inj text

theorem symbolTokens_pieces {pieces : List Bytes}
    (known : ∀ piece ∈ pieces, IsToken vocab (encodeBytes piece)) :
    List.Forall₂ (IsPiece vocab) ((pieces.map encodeBytes).flatMap (symbolTokens vocab)) pieces := by
  induction pieces with
  | nil => exact .nil
  | cons piece rest ih =>
    obtain ⟨id, same, isPiece⟩ := symbolTokens_piece (known piece mem_cons_self)
    rw [map_cons, flatMap_cons, same]
    exact .cons isPiece (ih fun other member => known other (mem_cons_of_mem _ member))

theorem mapM_mergeWord (level : ByteLevel vocab) (whole : WholeWordsNormal vocab)
    (words : List Bytes) :
    ∃ parts : List (List Bytes),
      (words.map encodeBytes).mapM (mergeWord vocab) = .ok (parts.map (List.map encodeBytes)) ∧
      parts.flatten.flatten = words.flatten ∧
      ∀ piece ∈ parts.flatten, IsToken vocab (encodeBytes piece) := by
  induction words with
  | nil => exact ⟨[], rfl, rfl, fun _ member => absurd member not_mem_nil⟩
  | cons word rest ih =>
    obtain ⟨pieces, merged, together, known⟩ := mergeWord_pieces level whole word
    obtain ⟨parts, others, restTogether, restKnown⟩ := ih
    refine ⟨pieces :: parts, ?_, ?_, ?_⟩
    · rw [map_cons, mapM_cons, merged, others]
      rfl
    · rw [flatten_cons, flatten_append, together, restTogether, flatten_cons]
    · intro piece member
      rcases mem_append.mp member with here | there
      · exact known piece here
      · exact restKnown piece there

theorem sessionTokenize_pieces {data : UnicodeData} {engine : RegexEngine}
    {regexExprs : List Bytes} (delivers : engine.Delivers)
    (accepts : ∀ regexExpr ∈ regexExprs, Accepts data engine regexExpr) (level : ByteLevel vocab)
    (whole : WholeWordsNormal vocab) (valid : ValidUtf8 text) (some_ : text ≠ []) :
    ∃ tokens pieces, sessionTokenize vocab data engine regexExprs text = .ok tokens ∧
      List.Forall₂ (IsPiece vocab) tokens pieces ∧ pieces.flatten = text := by
  obtain ⟨cpts, scalar, rfl⟩ := valid
  have someCpts : cpts ≠ [] := by
    rintro rfl
    exact some_ rfl
  obtain ⟨words, inOrder, split⟩ := unicodeRegexSplit_words delivers accepts
    (fun cpt member => (scalar cpt member).1) someCpts
  obtain ⟨parts, merged, together, known⟩ :=
    mapM_mergeWord level whole (words.map (List.flatMap utf8Bytes))
  rw [map_map] at merged
  refine ⟨_, parts.flatten, ?_, symbolTokens_pieces known, ?_⟩
  · have encodes : vocab.byteEncode = true := by rw [BpeVocab.byteEncode, level.encoded.1]; rfl
    have mergedWords : (words.map fun word => encodeBytes (word.flatMap utf8Bytes)).mapM
        (mergeWord vocab) = .ok (parts.map (List.map encodeBytes)) := merged
    rw [sessionTokenize, encodes, split, ok_bind, mergedWords, ok_bind, map_flatten]
  · rw [together, ← inOrder, flatMap_def, map_flatten, flatten_flatten, map_map]
    rfl

theorem skipSpaces_zero (piece : Bytes) : skipSpaces 0 piece = piece := by
  cases piece with
  | nil => rfl
  | cons c rest => rw [skipSpaces]; rintro lstrip rest ⟨⟩

theorem tokenToPiece_piece (level : ByteLevel vocab) {id avail : Nat} {piece : Bytes}
    (isPiece : IsPiece vocab id piece) (small : piece.length < 2 ^ 31 - 1)
    (fits : piece.length ≤ avail) (special : Bool) :
    tokenToPiece vocab id avail 0 special = .ok (.copied piece) := by
  obtain ⟨token, read, text, normal, plain⟩ := isPiece
  rw [TokenAttr.isSpecial, Bool.or_eq_false_iff, Bool.or_eq_false_iff] at plain
  have printed : pieceText vocab token = .ok piece := by
    rw [pieceText, plain.1.1, plain.1.2, plain.2, normal, level.encoded.2, text]
    exact llamaDecodeText_encodeBytes piece
  rw [tokenToPiece, read]
  dsimp only
  rw [plain.1.1, plain.2, Bool.or_false, Bool.and_false, if_neg Bool.false_ne_true, printed, ok_bind,
    if_neg (by omega), skipSpaces_zero, if_neg (by omega)]

theorem detokenizeLoop_pieces (level : ByteLevel vocab) {tokens : List Nat} {pieces : List Bytes}
    (stand : List.Forall₂ (IsPiece vocab) tokens pieces) {avail : Nat}
    (small : pieces.flatten.length < 2 ^ 31 - 1) (fits : pieces.flatten.length ≤ avail)
    (unparseSpecial : Bool) (text : Bytes) (total : Nat) :
    detokenizeLoop vocab unparseSpecial tokens avail false text total =
      .ok (text ++ pieces.flatten, total + pieces.flatten.length) := by
  induction stand generalizing avail text total with
  | nil => rw [flatten_nil, append_nil]; rfl
  | @cons id piece ids rest isPiece _ ih =>
    rw [flatten_cons, length_append] at small fits ⊢
    rw [detokenizeLoop, Bool.toNat_false,
      tokenToPiece_piece level isPiece (by omega) (by omega), ok_bind]
    dsimp only
    rw [ih (by omega) (by omega), append_assoc, add_assoc]

end

/-- The vocabulary of a list of tokens, where the first token with a text is the one looked up. -/
def vocabOf (tokens : List TokenData) (ignoreMerges : Bool) : BpeVocab where
  idToToken := tokens
  tokenToId text := tokens.findIdx? fun token => token.text == text
  bpeRanks _ _ := none
  cacheSpecialTokens := (List.range tokens.length).filter fun id =>
    (tokens[id]?).any fun token => token.attr.isSpecial
  ignoreMerges
  isGemma4 := false
  addSpacePrefix := false
  escapeWhitespaces := false
  addBos := false
  addEos := false
  specialBosId := none
  specialEosId := none
  text_of_id text id found := by
    obtain ⟨inside, same, -⟩ := List.findIdx?_eq_some_iff_getElem.mp found
    rw [List.getElem?_eq_getElem inside, Option.map_some, beq_iff_eq.mp same]
  special_iff id := by
    rw [mem_filter, mem_range]
    constructor
    · exact fun member => member.2
    · intro special
      refine ⟨?_, special⟩
      by_contra outside
      rw [List.getElem?_eq_none (by omega)] at special
      contradiction

def byteTokens : List TokenData :=
  (List.range 256).map fun byte =>
    { text := unicodeByteToUtf8 (UInt8.ofNat byte), attr := { normal := true } }

variable {tokens : List TokenData} {ignoreMerges : Bool}

theorem isToken_vocabOf {text : Bytes} (listed : ∃ token ∈ tokens, token.text = text)
    (normal : ∀ token ∈ tokens, token.text = text → token.attr.normal = true ∧ token.attr.isSpecial = false) :
    IsToken (vocabOf tokens ignoreMerges) text := by
  obtain ⟨token, member, same⟩ := listed
  have some_ : (tokens.findIdx? fun token => token.text == text).isSome = true := by
    rw [List.findIdx?_isSome]
    exact any_eq_true.mpr ⟨token, member, beq_iff_eq.mpr same⟩
  obtain ⟨id, found⟩ := Option.isSome_iff_exists.mp some_
  obtain ⟨inside, here, -⟩ := List.findIdx?_eq_some_iff_getElem.mp found
  exact ⟨id, tokens[id], found, List.getElem?_eq_getElem inside,
    normal _ (getElem_mem inside) (beq_iff_eq.mp here)⟩

theorem byteLevel_vocabOf (listed : ∀ token ∈ byteTokens, token ∈ tokens)
    (normal : ∀ token ∈ tokens, ∀ byte, token.text = unicodeByteToUtf8 byte → token.attr.normal = true ∧ token.attr.isSpecial = false) :
    ByteLevel (vocabOf tokens ignoreMerges) where
  encoded := ⟨rfl, rfl⟩
  noPrefix := rfl
  bytes byte := by
    refine isToken_vocabOf ⟨_, listed _ (mem_map.mpr ⟨byte.toNat, ?_, rfl⟩), ?_⟩ ?_
    · exact mem_range.mpr byte.toNat_lt
    · rw [UInt8.ofNat_toNat]
    · exact fun token member same => normal token member byte same
  merges := by
    rintro text ⟨left, right, rank, some_, -⟩
    cases some_

theorem normal_byteTokens {token : TokenData} (member : token ∈ byteTokens) :
    token.attr.normal = true ∧ token.attr.isSpecial = false := by
  obtain ⟨byte, -, rfl⟩ := mem_map.mp member
  exact ⟨rfl, rfl⟩

def byteVocab : BpeVocab := vocabOf byteTokens false

/-- A vocabulary that ignores merges, with an unused token for the word `ab`. -/
def unusedVocab : BpeVocab := vocabOf ({ text := [97, 98], attr := {} } :: byteTokens) true

/-- Tables in which `a` and `b` are the letters. -/
def letterData : UnicodeData :=
  { cptFlags := fun cpt => if cpt = 97 ∨ cpt = 98 then 0x04 else 0, toLower := id }

def noMatches : RegexEngine := { narrow := fun _ => some fun _ => [], wide := fun _ => some fun _ => [] }

theorem delivers_noMatches : noMatches.Delivers where
  narrow := by
    rintro regex search ⟨⟩ text
    exact Nat.zero_le _
  wide := by
    rintro regex search ⟨⟩ text
    exact Nat.zero_le _

theorem freeOfSpecial_vocabOf (plain : ∀ token ∈ tokens, token.attr.isSpecial = false)
    (text : Bytes) : FreeOfSpecial (vocabOf tokens ignoreMerges) text := by
  intro id member special read
  have isSpecial := (mem_filter.mp member).2
  change tokens[id]? = some special at read
  rw [read, Option.any_some, plain special (mem_of_getElem? read)] at isSpecial
  contradiction

theorem byteLevel_byteVocab : ByteLevel byteVocab :=
  byteLevel_vocabOf (fun _ member => member) fun _ member _ _ => normal_byteTokens member

theorem byteLevel_unusedVocab : ByteLevel unusedVocab := by
  refine byteLevel_vocabOf (fun _ member => mem_cons_of_mem _ member) ?_
  intro token member byte same
  rcases mem_cons.mp member with rfl | listed
  · have length := unicodeLenUtf8_unicodeByteToUtf8 byte
    rw [← same] at length
    exact absurd length (by decide)
  · exact normal_byteTokens listed

theorem validUtf8_ab : ValidUtf8 [97, 98] := by
  refine ⟨[97, 98], ?_, rfl⟩
  intro cpt member
  rcases mem_pair.mp member with rfl | rfl <;> exact ⟨by omega, by omega⟩

/-- Detokenizing the tokens of a text writes the text. -/
theorem detokenize_tokenize {vocab : BpeVocab} {data : UnicodeData} {engine : RegexEngine}
    (delivers : engine.Delivers) (level : ByteLevel vocab) (whole : WholeWordsNormal vocab) {regexExprs : List Bytes}
    (accepts : ∀ regexExpr ∈ regexExprs, Accepts data engine regexExpr) {text : Bytes}
    (valid : ValidUtf8 text) (some_ : text ≠ []) (free : FreeOfSpecial vocab text)
    {textLenMax : Nat} (fits : text.length ≤ textLenMax) (small : text.length < 2 ^ 31 - 1)
    (parseSpecial unparseSpecial : Bool) :
    ∃ tokens, tokenize vocab data engine regexExprs text false parseSpecial = .ok tokens ∧
      detokenize vocab tokens textLenMax false unparseSpecial = .ok (text.length, text) := by
  obtain ⟨tokens, pieces, ran, stand, together⟩ :=
    sessionTokenize_pieces delivers accepts level whole valid some_
  refine ⟨tokens, ?_, ?_⟩
  · rw [tokenize, if_neg some_, tokenizerStPartition_free free some_]
    simp only [addedToken, Bool.false_eq_true, if_false, level.encoded.2,
      mapM_cons, ran]
    simp
  · rw [detokenize]
    simp only [Bool.false_and, Bool.false_eq_true, if_false, level.noPrefix]
    rw [detokenizeLoop_pieces level stand (by rw [together]; exact small)
      (by rw [together]; exact fits), together, ok_bind, nil_append, zero_add, if_pos fits]

theorem detokenize_tokenize_ab :
    FreeOfSpecial byteVocab [97, 98] ∧
      ∃ tokens, tokenize byteVocab letterData noMatches [gpt2Regex] [97, 98] false false = .ok tokens ∧
        detokenize byteVocab tokens 2 false false = .ok (2, [97, 98]) := by
  have free : FreeOfSpecial byteVocab [97, 98] :=
    freeOfSpecial_vocabOf (fun _ member => (normal_byteTokens member).2) _
  refine ⟨free, detokenize_tokenize delivers_noMatches byteLevel_byteVocab ?_ ?_ validUtf8_ab
    (cons_ne_nil _ _) free (le_refl 2) (by decide) false false⟩
  · intro ignored
    cases ignored
  · intro regexExpr member
    rw [mem_singleton.mp member]
    left
    rw [customSplitter, if_pos rfl]
    rfl

theorem tokenize_unused :
    tokenize unusedVocab letterData noMatches [gpt2Regex] [97, 98] false false = .ok [0] := by
  decide +kernel

def mixedRegex : Bytes := utf8Of "é\\p\x7bL\x7d+"

theorem tokenize_mixed :
    tokenize byteVocab letterData noMatches [mixedRegex] [97, 98] false false =
      .error "Regex includes both unicode categories and non-ASCII characters - not supported" := by
  decide +kernel

/-- Where merges are ignored, a word can be an unused token, which is printed as nothing; and an
expression that mixes categories with other letters is refused. -/
theorem roundTrip_fails :
    (ByteLevel unusedVocab ∧ noMatches.Delivers ∧ ValidUtf8 [97, 98] ∧
      FreeOfSpecial unusedVocab [97, 98] ∧
      ¬ ∃ tokens, tokenize unusedVocab letterData noMatches [gpt2Regex] [97, 98] false false =
          .ok tokens ∧ detokenize unusedVocab tokens 2 false false = .ok (2, [97, 98])) ∧
    (ByteLevel byteVocab ∧ noMatches.Delivers ∧ ValidUtf8 [97, 98] ∧
      FreeOfSpecial byteVocab [97, 98] ∧
      ¬ ∃ tokens, tokenize byteVocab letterData noMatches [mixedRegex] [97, 98] false false =
          .ok tokens ∧ detokenize byteVocab tokens 2 false false = .ok (2, [97, 98])) := by
  refine ⟨⟨byteLevel_unusedVocab, delivers_noMatches, validUtf8_ab, ?_, ?_⟩,
    byteLevel_byteVocab, delivers_noMatches, validUtf8_ab, ?_, ?_⟩
  · refine freeOfSpecial_vocabOf ?_ _
    intro token member
    rcases mem_cons.mp member with rfl | listed
    · rfl
    · exact (normal_byteTokens listed).2
  · rintro ⟨tokens, tokenized, written⟩
    rw [tokenize_unused] at tokenized
    cases tokenized
    cases written
  · exact freeOfSpecial_vocabOf (fun _ member => (normal_byteTokens member).2) _
  · rintro ⟨tokens, tokenized, -⟩
    rw [tokenize_mixed] at tokenized
    cases tokenized

end LlamaCpp.Vocab
