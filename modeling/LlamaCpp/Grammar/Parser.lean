import LlamaCpp.Grammar.AcceptToken

/-!
# The grammar parser

The text of a grammar is parsed by recursive descent into a table of rules.  Names are given
ids as they come up, and a group or a repetition synthesises rules whose names no text can
write.  A position in the text is what is left of it; past its end a zero byte is read.
-/

set_option autoImplicit false

namespace LlamaCpp.Grammar

open LlamaCpp.Lib

/-- How parsing fails: an exception, which `parse` catches, a write out of bounds, an assertion,
or no fuel left. -/
inductive ParseFailure
  | threw (message : List Byte)
  | undefined
  | aborted
  | timeout
deriving DecidableEq

abbrev Parsed (α : Type) := Except ParseFailure α

def throwMessage {α : Type} (message : String) : Parsed α := .error (.threw (utf8Bytes message))

def throwAt {α : Type} (message : String) (pos : List Byte) : Parsed α :=
  .error (.threw (utf8Bytes message ++ pos))

namespace Ascii

abbrev tab : Byte := 0x09
abbrev newline : Byte := 0x0A
abbrev carriageReturn : Byte := 0x0D
abbrev space : Byte := 0x20
abbrev exclamation : Byte := 0x21
abbrev quote : Byte := 0x22
abbrev hash : Byte := 0x23
abbrev openParen : Byte := 0x28
abbrev closeParen : Byte := 0x29
abbrev star : Byte := 0x2A
abbrev plus : Byte := 0x2B
abbrev comma : Byte := 0x2C
abbrev dash : Byte := 0x2D
abbrev dot : Byte := 0x2E
abbrev colon : Byte := 0x3A
abbrev less : Byte := 0x3C
abbrev equals : Byte := 0x3D
abbrev greater : Byte := 0x3E
abbrev question : Byte := 0x3F
abbrev openBracket : Byte := 0x5B
abbrev backslash : Byte := 0x5C
abbrev closeBracket : Byte := 0x5D
abbrev caret : Byte := 0x5E
abbrev underscore : Byte := 0x5F
abbrev openBrace : Byte := 0x7B
abbrev pipe : Byte := 0x7C
abbrev closeBrace : Byte := 0x7D

end Ascii

def byteAt (pos : List Byte) : Byte := pos.headD 0

def isNewline (c : Byte) : Bool := decide (c = Ascii.carriageReturn) || decide (c = Ascii.newline)

def isDigitChar (c : Byte) : Bool := decide (0x30 ≤ c) && decide (c ≤ 0x39)

/-- `is_word_char`; an underscore is no such character. -/
def isWordChar (c : Byte) : Bool :=
  decide (0x61 ≤ c) && decide (c ≤ 0x7A) || decide (0x41 ≤ c) && decide (c ≤ 0x5A) ||
    decide (c = Ascii.dash) || isDigitChar c

def hexDigit (c : Byte) : Option Nat :=
  if 0x61 ≤ c ∧ c ≤ 0x66 then some (c.toNat - 0x61 + 10)
  else if 0x41 ≤ c ∧ c ≤ 0x46 then some (c.toNat - 0x41 + 10)
  else if 0x30 ≤ c ∧ c ≤ 0x39 then some (c.toNat - 0x30)
  else none

/-- The loop of `parse_hex`; there is no result when a digit is missing. -/
def hexDigits : Nat → Nat → List Byte → Option (Nat × List Byte)
  | 0, value, pos => some (value, pos)
  | _ + 1, _, [] => none
  | size + 1, value, c :: rest =>
    match hexDigit c with
    | some digit => hexDigits size (value <<< 4 + digit) rest
    | none => none

def parseHex (src : List Byte) (size : Nat) : Parsed (Nat × List Byte) :=
  match hexDigits size 0 src with
  | some found => .ok found
  | none => throwAt ("expecting " ++ toString size ++ " hex chars at ") src

/-- The loop of `parse_space`, with whether the position is inside a comment. -/
def skipSpace (newlineOk : Bool) : Bool → List Byte → List Byte
  | _, [] => []
  | inComment, c :: rest =>
    if inComment && !isNewline c then skipSpace newlineOk true rest
    else if c = Ascii.hash then skipSpace newlineOk true rest
    else if decide (c = Ascii.space) || decide (c = Ascii.tab) || newlineOk && isNewline c then
      skipSpace newlineOk false rest
    else c :: rest

def parseSpace (src : List Byte) (newlineOk : Bool) : List Byte := skipSpace newlineOk false src

def parseName (src : List Byte) : Parsed (List Byte × List Byte) :=
  if src.takeWhile isWordChar = [] then throwAt "expecting name at " src
  else .ok (src.takeWhile isWordChar, src.dropWhile isWordChar)

/-- `parse_int`: the digits, and the position after them. -/
def parseInt (src : List Byte) : Parsed (List Byte × List Byte) :=
  if src.takeWhile isDigitChar = [] then throwAt "expecting integer at " src
  else .ok (src.takeWhile isDigitChar, src.dropWhile isDigitChar)

def digitsValue (digits : List Byte) : Nat :=
  digits.foldl (fun value c => 10 * value + (c.toNat - 0x30)) 0

/-- `std::stoul` and `std::stoull` of digits, both of 64 bits. -/
def stoull (name : String) (digits : List Byte) : Parsed Nat :=
  if digitsValue digits < 2 ^ 64 then .ok (digitsValue digits) else throwMessage name

/-- `std::to_string`. -/
def decimal (n : Nat) : List Byte := (Nat.toDigits 10 n).map fun c => UInt8.ofNat c.toNat

def sequenceLookup : List Nat := [1, 1, 1, 1, 1, 1, 1, 1, 1, 1, 1, 1, 2, 2, 3, 4]

def continueChar : Nat → Nat → List Byte → Nat × List Byte
  | 0, value, pos => (value, pos)
  | _ + 1, value, [] => (value, [])
  | size + 1, value, c :: rest => continueChar size (appendBits value c) rest

/-- `decode_utf8` of one character. -/
def decodeChar (first : Byte) (rest : List Byte) : Nat × List Byte :=
  let len := sequenceLookup.getD (first >>> 4).toNat 0
  continueChar (len - 1) (first.toNat &&& ((1 <<< (8 - len)) - 1)) rest

def parseChar : List Byte → Parsed (Nat × List Byte)
  | [] => throwMessage "unexpected end of input"
  | first :: rest =>
    if first = Ascii.backslash then
      let escape := byteAt rest
      let after := rest.tail
      if escape = 0x78 then parseHex after 2
      else if escape = 0x75 then parseHex after 4
      else if escape = 0x55 then parseHex after 8
      else if escape = 0x74 then .ok (0x09, after)
      else if escape = 0x72 then .ok (0x0D, after)
      else if escape = 0x6E then .ok (0x0A, after)
      else if escape = Ascii.backslash ∨ escape = Ascii.quote ∨ escape = Ascii.openBracket ∨
          escape = Ascii.closeBracket then
        .ok (escape.toNat, after)
      else throwAt "unknown escape at " (first :: rest)
    else .ok (decodeChar first rest)

def expectByte (c : Byte) (message : String) (pos : List Byte) : Parsed (List Byte) :=
  if byteAt pos = c then .ok pos.tail else throwAt message pos

/-- `llama_vocab::tokenize`; there is none without a vocabulary. -/
abbrev Tokenize := Option (List Byte → List Nat)

def parseToken (tokenize : Tokenize) (src : List Byte) : Parsed (Nat × List Byte) := do
  let pos ← expectByte Ascii.less "expecting '<' at " src
  if byteAt pos = Ascii.openBracket then
    let (digits, pos) ← parseInt pos.tail
    let tokenId ← stoull "stoul" digits
    let pos ← expectByte Ascii.closeBracket "expecting ']' at " pos
    let pos ← expectByte Ascii.greater "expecting '>' at " pos
    return (tokenId % 2 ^ 32, pos)
  else
    match tokenize with
    | none => throwAt "no vocab to parse token at " src
    | some tokens =>
      let name := pos.takeWhile fun c => decide (c ≠ Ascii.greater)
      let pos ← expectByte Ascii.greater "expecting '>' at "
        (pos.dropWhile fun c => decide (c ≠ Ascii.greater))
      let text := Ascii.less :: name ++ [Ascii.greater]
      match tokens text with
      | [token] => return (token, pos)
      | _ => .error (.threw (utf8Bytes "invalid token '" ++ text ++ utf8Bytes "'"))

/-- `llama_grammar_parser`; the names are in the order of the map. -/
structure GrammarParser where
  symbolIds : List (List Byte × Nat)
  rules : List (List Element)
deriving DecidableEq

def nameLe : List Byte → List Byte → Bool
  | [], _ => true
  | _ :: _, [] => false
  | a :: as, b :: bs => decide (a < b) || decide (a = b) && nameLe as bs

def insertName (entry : List Byte × Nat) : List (List Byte × Nat) → List (List Byte × Nat)
  | [] => [entry]
  | other :: rest =>
    if nameLe entry.1 other.1 then entry :: other :: rest else other :: insertName entry rest

namespace GrammarParser

def idOf (parser : GrammarParser) (name : List Byte) : Option Nat :=
  (parser.symbolIds.find? fun entry => decide (entry.1 = name)).map Prod.snd

def nextId (parser : GrammarParser) : Nat := parser.symbolIds.length % 2 ^ 32

def getSymbolId (parser : GrammarParser) (name : List Byte) : Nat × GrammarParser :=
  match parser.idOf name with
  | some id => (id, parser)
  | none =>
    (parser.nextId, { parser with symbolIds := insertName (name, parser.nextId) parser.symbolIds })

def generatedName (baseName : List Byte) (id : Nat) : List Byte :=
  baseName ++ Ascii.underscore :: decimal id

/-- `generate_symbol_id`; a name that is there already is given the id. -/
def generateSymbolId (parser : GrammarParser) (baseName : List Byte) : Nat × GrammarParser :=
  let name := generatedName baseName parser.nextId
  let symbolIds :=
    match parser.idOf name with
    | some _ => parser.symbolIds.map fun entry =>
      if entry.1 = name then (name, parser.nextId) else entry
    | none => insertName (name, parser.nextId) parser.symbolIds
  (parser.nextId, { parser with symbolIds })

def resize (rules : List (List Element)) (size : Nat) : List (List Element) :=
  rules.take size ++ List.replicate (size - rules.length) []

/-- `add_rule`; the new size has 32 bits too. -/
def addRule (parser : GrammarParser) (ruleId : Nat) (rule : List Element) : Parsed GrammarParser :=
  let rules :=
    if parser.rules.length ≤ ruleId then resize parser.rules ((ruleId + 1) % 2 ^ 32) else parser.rules
  if ruleId < rules.length then .ok { parser with rules := rules.set ruleId rule }
  else .error .undefined

end GrammarParser

def maxRepetitionThreshold : Nat := 2000

def noMaxTimes : Nat := 2 ^ 64 - 1

/-- What `parse_sequence` keeps while it goes through the text. -/
structure SequenceState where
  pos : List Byte
  rule : List Element
  lastSymStart : Nat
  nPrevRules : Nat
  parser : GrammarParser
deriving DecidableEq

/-- The loop that adds the rules of the optional repetitions; `last` is the rule before. -/
def optionalRules (ruleName : List Byte) (prevRule : List Element) (noMax : Bool) :
    Nat → Option Nat → GrammarParser → Parsed (Option Nat × GrammarParser)
  | 0, last, parser => .ok (last, parser)
  | n + 1, last, parser => do
      let (recRuleId, parser) := parser.generateSymbolId ruleName
      let tail :=
        if noMax then [⟨.ruleRef, recRuleId⟩]
        else
          match last with
          | some lastRecRuleId => [⟨.ruleRef, lastRecRuleId⟩]
          | none => []
      let parser ← parser.addRule recRuleId (prevRule ++ tail ++ [⟨.alt, 0⟩, ⟨.end, 0⟩])
      optionalRules ruleName prevRule noMax n (some recRuleId) parser

def handleRepetitions (ruleName : List Byte) (minTimes maxTimes : Nat) (s : SequenceState) :
    Parsed SequenceState := do
  let noMax := decide (maxTimes = noMaxTimes)
  if s.lastSymStart = s.rule.length then throwAt "expecting preceding item to */+/?/\x7b at " s.pos
  else
    let prevRule := s.rule.drop s.lastSymStart
    let totalRules :=
      if !noMax && decide (0 < maxTimes) then maxTimes else if 0 < minTimes then minTimes else 1
    if maxRepetitionThreshold ≤ s.nPrevRules * totalRules % 2 ^ 64 then
      throwMessage "number of rules that are going to be repeated multiplied by the new repetition exceeds sane defaults, please reduce the number of repetitions or rule complexity"
    else
      let kept :=
        if minTimes = 0 then s.rule.take s.lastSymStart
        else s.rule ++ (List.replicate (minTimes - 1) prevRule).flatten
      let nOpt := if noMax then 1 else (maxTimes + 2 ^ 64 - minTimes) % 2 ^ 64
      let (last, parser) ← optionalRules ruleName prevRule noMax nOpt none s.parser
      let rule :=
        match last with
        | some lastRecRuleId => kept ++ [⟨.ruleRef, lastRecRuleId⟩]
        | none => kept
      let nPrevRules := s.nPrevRules * totalRules % 2 ^ 64
      if nPrevRules < 1 then .error .aborted else return { s with rule, nPrevRules, parser }

def parseBounds (isNested : Bool) (pos : List Byte) : Parsed (Nat × Nat × List Byte) := do
  if !isDigitChar (byteAt pos) then throwAt "expecting an int at " pos
  else
    let (digits, intEnd) ← parseInt pos
    let minTimes ← stoull "stoull" digits
    let pos := parseSpace intEnd isNested
    if byteAt pos = Ascii.closeBrace then return (minTimes, minTimes, parseSpace pos.tail isNested)
    else if byteAt pos = Ascii.comma then
      let pos := parseSpace pos.tail isNested
      if isDigitChar (byteAt pos) then
        let (digits, intEnd) ← parseInt pos
        let maxTimes ← stoull "stoull" digits
        let pos ← expectByte Ascii.closeBrace "expecting '\x7d' at " (parseSpace intEnd isNested)
        return (minTimes, maxTimes, parseSpace pos isNested)
      else
        let pos ← expectByte Ascii.closeBrace "expecting '\x7d' at " pos
        return (minTimes, noMaxTimes, parseSpace pos isNested)
    else throwAt "expecting ',' at " pos

def checkBounds (minTimes maxTimes : Nat) : Parsed Unit :=
  if maxRepetitionThreshold < minTimes ∨
      (maxTimes ≠ noMaxTimes ∧ maxRepetitionThreshold < maxTimes) then
    throwMessage "number of repetitions exceeds sane defaults, please reduce the number of repetitions"
  else .ok ()

def literalChars : Nat → List Byte → List Element → Parsed (List Byte × List Element)
  | 0, _, _ => .error .timeout
  | fuel + 1, pos, rule =>
    if byteAt pos = Ascii.quote then .ok (pos, rule)
    else if pos = [] then throwMessage "unexpected end of input"
    else do
      let (chr, pos) ← parseChar pos
      literalChars fuel pos (rule ++ [⟨.char, chr⟩])

def rangeUpper (pos : List Byte) (rule : List Element) : Parsed (List Byte × List Element) :=
  if byteAt pos = Ascii.dash ∧ byteAt pos.tail ≠ Ascii.closeBracket then
    if pos.tail = [] then throwMessage "unexpected end of input"
    else do
      let (endChr, pos) ← parseChar pos.tail
      return (pos, rule ++ [⟨.charRngUpper, endChr⟩])
  else .ok (pos, rule)

def classChars (startType : Gretype) (lastSymStart : Nat) :
    Nat → List Byte → List Element → Parsed (List Byte × List Element)
  | 0, _, _ => .error .timeout
  | fuel + 1, pos, rule =>
    if byteAt pos = Ascii.closeBracket then .ok (pos, rule)
    else if pos = [] then throwMessage "unexpected end of input"
    else do
      let (chr, pos) ← parseChar pos
      let type := if lastSymStart < rule.length then .charAlt else startType
      let (pos, rule) ← rangeUpper pos (rule ++ [⟨type, chr⟩])
      classChars startType lastSymStart fuel pos rule

def SequenceState.symbol (s : SequenceState) (elements : List Element) (pos : List Byte)
    (parser : GrammarParser) : SequenceState :=
  { pos, rule := s.rule ++ elements, lastSymStart := s.rule.length, nPrevRules := 1, parser }

def literalItem (fuel : Nat) (isNested : Bool) (s : SequenceState) : Parsed SequenceState := do
  let (pos, rule) ← literalChars fuel s.pos.tail s.rule
  return { s with
    pos := parseSpace pos.tail isNested, rule, lastSymStart := s.rule.length, nPrevRules := 1 }

def classItem (fuel : Nat) (isNested : Bool) (s : SequenceState) : Parsed SequenceState := do
  let negated := decide (byteAt s.pos.tail = Ascii.caret)
  let start := if negated then s.pos.tail.tail else s.pos.tail
  let startType := if negated then .charNot else .char
  let (pos, rule) ← classChars startType s.rule.length fuel start s.rule
  return { s with
    pos := parseSpace pos.tail isNested, rule, lastSymStart := s.rule.length, nPrevRules := 1 }

def tokenItem (tokenize : Tokenize) (isNested : Bool) (s : SequenceState) : Parsed SequenceState := do
  let inverse := decide (byteAt s.pos = Ascii.exclamation)
  let type := if inverse then .tokenNot else .token
  let (token, tokenEnd) ← parseToken tokenize (if inverse then s.pos.tail else s.pos)
  return s.symbol [⟨type, token⟩] (parseSpace tokenEnd isNested) s.parser

def referenceItem (isNested : Bool) (s : SequenceState) : Parsed SequenceState := do
  let (name, nameEnd) ← parseName s.pos
  let (refRuleId, parser) := s.parser.getSymbolId name
  return s.symbol [⟨.ruleRef, refRuleId⟩] (parseSpace nameEnd isNested) parser

/-- The call of `parse_alternates` on what is inside a group. -/
abbrev ParseGroup := List Byte → Nat → GrammarParser → Parsed (List Byte × GrammarParser)

def groupItem (parseGroup : ParseGroup) (ruleName : List Byte) (isNested : Bool)
    (s : SequenceState) : Parsed SequenceState := do
  let nRulesBefore := s.parser.symbolIds.length % 2 ^ 32
  let (subRuleId, parser) := s.parser.generateSymbolId ruleName
  let (pos, parser) ← parseGroup (parseSpace s.pos.tail true) subRuleId parser
  let nRules := (parser.symbolIds.length % 2 ^ 32 + 2 ^ 32 - nRulesBefore) % 2 ^ 32
  let pos ← expectByte Ascii.closeParen "expecting ')' at " pos
  return { s.symbol [⟨.ruleRef, subRuleId⟩] (parseSpace pos isNested) parser with
    nPrevRules := max 1 nRules }

def repeatItem (ruleName : List Byte) (isNested : Bool) (minTimes maxTimes : Nat)
    (s : SequenceState) : Parsed SequenceState :=
  handleRepetitions ruleName minTimes maxTimes { s with pos := parseSpace s.pos.tail isNested }

def boundsItem (ruleName : List Byte) (isNested : Bool) (s : SequenceState) :
    Parsed SequenceState := do
  let (minTimes, maxTimes, pos) ← parseBounds isNested (parseSpace s.pos.tail isNested)
  checkBounds minTimes maxTimes
  handleRepetitions ruleName minTimes maxTimes { s with pos }

/-- The body of the loop of `parse_sequence`; without a result the loop ends. -/
def sequenceItem (tokenize : Tokenize) (fuel : Nat) (parseGroup : ParseGroup)
    (ruleName : List Byte) (isNested : Bool) (s : SequenceState) : Option (Parsed SequenceState) :=
  let c := byteAt s.pos
  if c = Ascii.quote then some (literalItem fuel isNested s)
  else if c = Ascii.openBracket then some (classItem fuel isNested s)
  else if c = Ascii.less ∨ c = Ascii.exclamation then some (tokenItem tokenize isNested s)
  else if isWordChar c then some (referenceItem isNested s)
  else if c = Ascii.openParen then some (groupItem parseGroup ruleName isNested s)
  else if c = Ascii.dot then
    some (.ok (s.symbol [⟨.charAny, 0⟩] (parseSpace s.pos.tail isNested) s.parser))
  else if c = Ascii.star then some (repeatItem ruleName isNested 0 noMaxTimes s)
  else if c = Ascii.plus then some (repeatItem ruleName isNested 1 noMaxTimes s)
  else if c = Ascii.question then some (repeatItem ruleName isNested 0 1 s)
  else if c = Ascii.openBrace then some (boundsItem ruleName isNested s)
  else none

/-- The loop of `parse_sequence`, whose body is `item`. -/
def sequenceLoop (item : SequenceState → Option (Parsed SequenceState)) :
    Nat → SequenceState → Parsed SequenceState
  | 0, _ => .error .timeout
  | fuel + 1, s =>
    match item s with
    | some next => next >>= sequenceLoop item fuel
    | none => .ok s

/-- `parse_sequence`, behind the elements that the rule has so far. -/
def parseSequence (item : SequenceState → Option (Parsed SequenceState)) (fuel : Nat)
    (pos : List Byte) (rule : List Element) (parser : GrammarParser) : Parsed SequenceState :=
  sequenceLoop item fuel { pos, rule, lastSymStart := rule.length, nPrevRules := 1, parser }

/-- The loop of `parse_alternates` over the sequences after the first one. -/
def alternatesLoop (item : SequenceState → Option (Parsed SequenceState)) (fuel : Nat) :
    Nat → SequenceState → Parsed SequenceState
  | 0, _ => .error .timeout
  | n + 1, s =>
    if byteAt s.pos = Ascii.pipe then
      parseSequence item fuel (parseSpace s.pos.tail true) (s.rule ++ [⟨.alt, 0⟩]) s.parser >>=
        alternatesLoop item fuel n
    else .ok s

/-- `parse_alternates`; the depth is that of the groups. -/
def parseAlternates (tokenize : Tokenize) (fuel : Nat) (ruleName : List Byte) :
    Nat → Bool → List Byte → Nat → GrammarParser → Parsed (List Byte × GrammarParser)
  | 0, _, _, _, _ => .error .timeout
  | depth + 1, isNested, src, ruleId, parser => do
      let item := sequenceItem tokenize fuel (parseAlternates tokenize fuel ruleName depth true)
        ruleName isNested
      let first ← parseSequence item fuel src [] parser
      let last ← alternatesLoop item fuel fuel first
      let parser ← last.parser.addRule ruleId (last.rule ++ [⟨.end, 0⟩])
      return (last.pos, parser)

def parseRule (tokenize : Tokenize) (fuel : Nat) (src : List Byte) (parser : GrammarParser) :
    Parsed (List Byte × GrammarParser) := do
  let (name, nameEnd) ← parseName src
  let pos := parseSpace nameEnd false
  let (ruleId, parser) := parser.getSymbolId name
  if byteAt pos = Ascii.colon ∧ byteAt pos.tail = Ascii.colon ∧
      byteAt pos.tail.tail = Ascii.equals then
    let (pos, parser) ← parseAlternates tokenize fuel name fuel false
      (parseSpace pos.tail.tail.tail true) ruleId parser
    if byteAt pos = Ascii.carriageReturn then
      let pos := if byteAt pos.tail = Ascii.newline then pos.tail.tail else pos.tail
      return (parseSpace pos true, parser)
    else if byteAt pos = Ascii.newline then return (parseSpace pos.tail true, parser)
    else if pos = [] then return (parseSpace pos true, parser)
    else throwAt "expecting newline or end at " pos
  else throwAt "expecting ::= at " pos

def parseRules (tokenize : Tokenize) (fuel : Nat) :
    Nat → List Byte → GrammarParser → Parsed GrammarParser
  | 0, _, _ => .error .timeout
  | n + 1, pos, parser =>
    if pos = [] then .ok parser
    else do
      let (pos, parser) ← parseRule tokenize fuel pos parser
      parseRules tokenize fuel n pos parser

def checkElement (parser : GrammarParser) (elem : Element) : Parsed Unit :=
  if elem.type = .ruleRef ∧ parser.rules.getD elem.value [] = [] then
    match parser.symbolIds.find? fun entry => decide (entry.2 = elem.value) with
    | some entry =>
      .error (.threw (utf8Bytes "Undefined rule identifier '" ++ entry.1 ++ utf8Bytes "'"))
    | none => .ok ()
  else .ok ()

def checkRule (parser : GrammarParser) (rule : List Element) : Parsed Unit :=
  if rule = [] then throwMessage "Undefined rule" else rule.forM (checkElement parser)

/-- `llama_grammar_parser::parse` of a text that a zero byte ends; it returns false, with no
rules, when an exception is thrown. -/
def parse (tokenize : Tokenize) (fuel : Nat) (src : List Byte) : Parsed GrammarParser := do
  let parser ← parseRules tokenize fuel fuel (parseSpace (cStr src) true) ⟨[], []⟩
  parser.rules.forM (checkRule parser)
  return parser

/-- `root ::= "a"? item` and `item ::= [b-d] | .`. -/
example : (parse none 40 (utf8Bytes "root ::= \"a\"? item\nitem ::= [b-d] | .")).map
      (fun parser => parser.rules) =
    .ok [[⟨.ruleRef, 1⟩, ⟨.ruleRef, 2⟩, ⟨.end, 0⟩],
      [⟨.char, 0x61⟩, ⟨.alt, 0⟩, ⟨.end, 0⟩],
      [⟨.char, 0x62⟩, ⟨.charRngUpper, 0x64⟩, ⟨.alt, 0⟩, ⟨.charAny, 0⟩, ⟨.end, 0⟩]] := by
  decide +kernel

end LlamaCpp.Grammar
