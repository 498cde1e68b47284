import LlamaCpp.Vocab.RegexWords

/-!
# Byte pair encoding

Each word starts as a chain of symbols, one for every character.  A queue holds the pairs of
neighbours that a merge rule joins; the best one is joined if both symbols are still as they were,
and the pairs that the new symbol makes with its neighbours enter the queue.
-/

set_option autoImplicit false

namespace LlamaCpp.Vocab

open LlamaCpp.Lib

/-- The bits of `llama_token_attr` that the tokenizer reads. -/
structure TokenAttr where
  unknown : Bool := false
  normal : Bool := false
  control : Bool := false
  userDefined : Bool := false
  byte : Bool := false
  lstrip : Bool := false
  rstrip : Bool := false

structure TokenData where
  text : Bytes
  attr : TokenAttr

def TokenAttr.isSpecial (attr : TokenAttr) : Bool := attr.control || attr.userDefined || attr.unknown

/-- A vocabulary of type `LLAMA_VOCAB_TYPE_BPE` without space clean-up. -/
structure BpeVocab where
  idToToken : List TokenData
  tokenToId : Bytes → Option Nat
  bpeRanks : Bytes → Bytes → Option Nat
  cacheSpecialTokens : List Nat
  ignoreMerges : Bool
  /-- The type of the pre-tokenizer is `LLAMA_VOCAB_PRE_TYPE_GEMMA4`. -/
  isGemma4 : Bool
  addSpacePrefix : Bool
  escapeWhitespaces : Bool
  addBos : Bool
  addEos : Bool
  specialBosId : Option Nat
  specialEosId : Option Nat
  text_of_id : ∀ text id, tokenToId text = some id → (idToToken[id]?).map TokenData.text = some text
  special_iff : ∀ id, id ∈ cacheSpecialTokens ↔
    (idToToken[id]?).any (fun token => token.attr.isSpecial) = true

/-- `byte_encode`, which the constructor of `llm_tokenizer_bpe` sets. -/
def BpeVocab.byteEncode (vocab : BpeVocab) : Bool := !vocab.isGemma4

/-- `llm_symbol`; the text goes on to the end of the word. -/
structure Symbol where
  prev : Option Nat := none
  next : Option Nat := none
  text : Bytes := []
  n : Nat := 0
deriving DecidableEq, Inhabited

def Symbol.str (symbol : Symbol) : Bytes := symbol.text.take symbol.n

/-- `llm_bigram_bpe`. -/
structure Bigram where
  left : Nat
  right : Nat
  text : Bytes
  rank : Nat
  size : Nat
deriving DecidableEq

structure Session where
  symbols : List Symbol
  workQueue : List Bigram := []
deriving DecidableEq

def symbolAt (symbols : List Symbol) (i : Nat) : Symbol := symbols.getD i {}

/-- The order of `llm_bigram_bpe::comparator`. -/
def Bigram.before (bigram other : Bigram) : Bool :=
  bigram.rank < other.rank || (bigram.rank == other.rank && bigram.left < other.left)

/-- `pop_move`: a bigram that none of the others is before. -/
def popMove : List Bigram → Option (Bigram × List Bigram)
  | [] => none
  | bigram :: rest =>
    match popMove rest with
    | some (best, others) =>
      if best.before bigram then some (best, bigram :: others) else some (bigram, rest)
    | none => some (bigram, [])

section

variable (vocab : BpeVocab)

def findBpeRank (tokenLeft tokenRight : Bytes) : Except String (Option Nat) :=
  if 0x20 ∈ tokenLeft ∨ 0x20 ∈ tokenRight then .error "GGML_ASSERT"
  else .ok (vocab.bpeRanks tokenLeft tokenRight)

def addNewBigram (session : Session) (left right : Option Nat) : Except String Session :=
  match left, right with
  | some left, some right =>
    let leftToken := (symbolAt session.symbols left).str
    let rightToken := (symbolAt session.symbols right).str
    findBpeRank vocab leftToken rightToken >>= fun rankFound =>
      match rankFound with
      | some rank =>
        let bigram : Bigram := { left, right, text := leftToken ++ rightToken, rank
                                 size := leftToken.length + rightToken.length }
        .ok { session with workQueue := session.workQueue ++ [bigram] }
      | none => .ok session
  | _, _ => .ok session

def joinSymbols (symbols : List Symbol) (left right : Nat) : List Symbol :=
  let l := symbolAt symbols left
  let r := symbolAt symbols right
  (symbols.set left { l with n := l.n + r.n, next := r.next }).set right { r with n := 0 }

def setPrev (symbols : List Symbol) (place : Option Nat) (prev : Nat) : List Symbol :=
  match place with
  | some i => symbols.set i { symbolAt symbols i with prev := some prev }
  | none => symbols

def mergeSymbols (symbols : List Symbol) (left right : Nat) : List Symbol :=
  setPrev (joinSymbols symbols left right) (symbolAt symbols right).next left

def mergeBigram (session : Session) (bigram : Bigram) : Except String Session :=
  let left := symbolAt session.symbols bigram.left
  let right := symbolAt session.symbols bigram.right
  if left.n = 0 ∨ right.n = 0 then .ok session
  -- the bigram is outdated
  else if left.str ++ right.str ≠ bigram.text then .ok session
  else
    let symbols := mergeSymbols session.symbols bigram.left bigram.right
    addNewBigram vocab { session with symbols } left.prev (some bigram.left) >>= fun session =>
      addNewBigram vocab session (some bigram.left) right.next

def mergeLoop : Nat → Session → Except String Session
  | 0, session => .ok session
  | fuel + 1, session =>
    match popMove session.workQueue with
    | none => .ok session
    | some (bigram, workQueue) =>
      mergeBigram vocab { session with workQueue } bigram >>= mergeLoop fuel

def charSymbols : Nat → Nat → Bytes → List Symbol
  | 0, _, _ => []
  | _ + 1, _, [] => []
  | fuel + 1, index, c :: rest =>
    let charLen := min (c :: rest).length (unicodeLenUtf8 c)
    { prev := if index = 0 then none else some (index - 1)
      next := if charLen = (c :: rest).length then none else some (index + 1)
      text := c :: rest
      n := charLen } :: charSymbols fuel (index + 1) ((c :: rest).drop charLen)

def wordSymbols (word : Bytes) : List Symbol :=
  let whole : List Symbol := [{ text := word, n := word.length }]
  if vocab.ignoreMerges ∧ (vocab.tokenToId word).isSome then whole
  else if vocab.isGemma4 ∧ (word.all (· == 10)) ∧ (vocab.tokenToId word).isSome then whole
  else charSymbols word.length 0 word

/-- The texts of the symbols that a word is merged into.  Every bigram is pushed for a new symbol,
and there are at most two for each of the symbols that a word starts as. -/
def mergeWord (word : Bytes) : Except String (List Bytes) :=
  let symbols := wordSymbols vocab word
  (List.range' 1 (symbols.length - 1)).foldlM (fun session i =>
      addNewBigram vocab session (some (i - 1)) (some i)) { symbols } >>= fun session =>
    mergeLoop vocab (4 * symbols.length) session >>= fun session =>
      .ok ((session.symbols.filter fun symbol => 0 < symbol.n).map Symbol.str)

def upperHex (n : Nat) : UInt8 := UInt8.ofNat (if n < 10 then 48 + n else 55 + n)

def symbolTokens (str : Bytes) : List Nat :=
  match vocab.tokenToId str with
  | some token => [token]
  | none =>
    str.filterMap fun ch =>
      if vocab.byteEncode then vocab.tokenToId [ch]
      else vocab.tokenToId
        [60, 48, 120, upperHex (ch.toNat / 16), upperHex (ch.toNat % 16), 62]

/-- `llm_tokenizer_bpe_session::tokenize`. -/
def sessionTokenize (data : UnicodeData) (engine : RegexEngine) (regexExprs : List Bytes)
    (text : Bytes) : Except String (List Nat) :=
  unicodeRegexSplit data engine text regexExprs vocab.byteEncode >>= fun words =>
    words.mapM (mergeWord vocab) >>= fun symbolsFinal =>
      .ok (symbolsFinal.flatten.flatMap (symbolTokens vocab))

inductive Fragment
  | token (id : Nat)
  | rawText (text : Bytes)

def isSpace (c : UInt8) : Bool := (9 ≤ c && c ≤ 13) || c == 32

def partitionText (token : Nat) (special : TokenData) : Nat → Bytes → List Fragment
  | 0, text => [.rawText text]
  | fuel + 1, text =>
    match findText special.text text with
    | none => if text = [] then [] else [.rawText text]
    | some found =>
      let left := if special.attr.lstrip then
          ((text.take found).reverse.dropWhile isSpace).reverse else text.take found
      let rest := text.drop (found + special.text.length)
      let right := if special.attr.rstrip then rest.dropWhile isSpace else rest
      (if left = [] then [] else [.rawText left]) ++ .token token ::
        (if rest = [] then [] else partitionText token special fuel right)

/-- The body of the loop of `tokenizer_st_partition` for one special token. -/
def partitionBy (parseSpecial : Bool) (fragments : List Fragment) (token : Nat) : List Fragment :=
  match vocab.idToToken[token]? with
  | none => fragments
  | some special =>
    if !parseSpecial && (special.attr.control || special.attr.unknown) then fragments
    else fragments.flatMap fun fragment =>
      match fragment with
      | .token id => [.token id]
      | .rawText text => partitionText token special (text.length + 1) text

def tokenizerStPartition (parseSpecial : Bool) (fragments : List Fragment) : List Fragment :=
  vocab.cacheSpecialTokens.foldl (partitionBy vocab parseSpecial) fragments

def llamaEscapeWhitespace (text : Bytes) : Bytes :=
  text.flatMap fun c => if c = 32 then [0xe2, 0x96, 0x81] else [c]

def addedToken (add : Bool) (special : Option Nat) : Except String (List Nat) :=
  if add then
    match special with
    | some token => .ok [token]
    | none => .error "GGML_ASSERT"
  else .ok []

def tokenize (data : UnicodeData) (engine : RegexEngine) (regexExprs : List Bytes) (rawText : Bytes)
    (addSpecial parseSpecial : Bool) : Except String (List Nat) :=
  let fragments := if rawText = [] then []
    else tokenizerStPartition vocab parseSpecial [.rawText rawText]
  addedToken (addSpecial && vocab.addBos) vocab.specialBosId >>= fun bos =>
    fragments.mapM (fun fragment =>
      match fragment with
      | .token id => .ok [id]
      | .rawText text =>
        sessionTokenize vocab data engine regexExprs
          (if vocab.escapeWhitespaces then llamaEscapeWhitespace text else text)) >>= fun parts =>
    addedToken (addSpecial && vocab.addEos) vocab.specialEosId >>= fun eos =>
      .ok (bos ++ parts.flatten ++ eos)

def llamaUnescapeWhitespace : Bytes → Bytes
  | 0xe2 :: 0x96 :: 0x81 :: rest => 32 :: llamaUnescapeWhitespace rest
  | c :: rest => c :: llamaUnescapeWhitespace rest
  | [] => []

def hexValue (c : UInt8) : Option Nat :=
  if 48 ≤ c ∧ c ≤ 57 then some (c.toNat - 48)
  else if 65 ≤ c ∧ c ≤ 70 then some (c.toNat - 55)
  else if 97 ≤ c ∧ c ≤ 102 then some (c.toNat - 87)
  else none

/-- `token_to_byte`: the digits of a token such as `<0x0A>`. -/
def tokenToByte (text : Bytes) : UInt8 :=
  UInt8.ofNat ((((text.drop 3).take 2).takeWhile fun c => (hexValue c).isSome).foldl
    (fun value c => 16 * value + (hexValue c).getD 0) 0)

def pieceText (token : TokenData) : Except String Bytes :=
  if token.attr.control || token.attr.unknown || token.attr.userDefined then .ok token.text
  else if token.attr.normal then
    if vocab.escapeWhitespaces then .ok (llamaUnescapeWhitespace token.text)
    else llamaDecodeText token.text
  else if token.attr.byte then .ok [tokenToByte token.text]
  else .ok []

/-- Up to `lstrip` spaces skipped at the beginning. -/
def skipSpaces : Nat → Bytes → Bytes
  | lstrip + 1, 32 :: rest => skipSpaces lstrip rest
  | _, piece => piece

/-- What a call with a buffer does: it copies a piece, or it says how long the piece is. -/
inductive Copied
  | copied (piece : Bytes)
  | tooLong (size : Nat)
deriving DecidableEq

/-- `token_to_piece` with a buffer; the cache holds what is computed here. -/
def tokenToPiece (token length lstrip : Nat) (special : Bool) : Except String Copied :=
  match vocab.idToToken[token]? with
  | none => .error "std::out_of_range"
  | some data =>
    if !special && (data.attr.unknown || data.attr.control) then .ok (.copied [])
    else
      pieceText vocab data >>= fun whole =>
        if 2 ^ 31 - 1 ≤ whole.length then .error "GGML_ABORT"
        else
          let piece := skipSpaces lstrip whole
          .ok (if length < piece.length then .tooLong piece.length else .copied piece)

/-- The loop of `detokenize`: what is written and how many bytes the text has. -/
def detokenizeLoop (unparseSpecial : Bool) :
    List Nat → Nat → Bool → Bytes → Nat → Except String (Bytes × Nat)
  | [], _, _, text, total => .ok (text, total)
  | token :: rest, avail, removeSpace, text, total =>
    tokenToPiece vocab token avail removeSpace.toNat unparseSpecial >>= fun copied =>
      match copied with
      | .tooLong size => detokenizeLoop unparseSpecial rest 0 false text (total + size)
      | .copied piece =>
        detokenizeLoop unparseSpecial rest (avail - piece.length) false (text ++ piece)
          (total + piece.length)

/-- `llama_vocab::impl::detokenize`: what is returned and what is written. -/
def detokenize (tokens : List Nat) (textLenMax : Nat) (removeSpecial unparseSpecial : Bool) :
    Except String (Int × Bytes) :=
  let hasBos := removeSpecial && vocab.addBos && tokens.head?.isSome &&
    tokens.head? == vocab.specialBosId
  let tokens := if hasBos then tokens.tail else tokens
  let tokens := if removeSpecial && vocab.addEos && tokens.getLast?.isSome &&
    tokens.getLast? == vocab.specialEosId then tokens.dropLast else tokens
  detokenizeLoop vocab unparseSpecial tokens textLenMax (vocab.addSpacePrefix && !hasBos) [] 0 >>=
    fun written =>
      .ok (if written.2 ≤ textLenMax then (written.2, written.1) else (-written.2, written.1))

end

end LlamaCpp.Vocab
