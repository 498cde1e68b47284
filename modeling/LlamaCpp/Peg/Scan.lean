import LlamaCpp.Lib.Utf8
import LlamaCpp.Peg.Arena
import LlamaCpp.Peg.Trie

/-!
# The scanning parsers

The parsers that read the input themselves.  In lenient mode the input may go on, and a
parser that runs out of it needs more; in strict mode the same parser fails.
-/

set_option autoImplicit false

namespace LlamaCpp.Peg

open LlamaCpp.Lib

inductive Utf8Result
  | success (codepoint bytesConsumed : Nat)
  | incomplete
  | invalid
deriving DecidableEq

def lowBits (b : Byte) (bits : Nat) : Nat := b.toNat % 2 ^ bits

def firstCodepoint : List Byte → Utf8Result
  | [] => .incomplete
  | b :: rest =>
    if b &&& 0x80 = 0 then .success b.toNat 1
    else if b &&& 0x40 = 0 then .invalid
    else if b &&& 0x20 = 0 then
      match rest with
      | c :: _ =>
        if !isContinuation c then .invalid else .success (lowBits b 5 * 64 + lowBits c 6) 2
      | _ => .incomplete
    else if b &&& 0x10 = 0 then
      match rest with
      | c :: d :: _ =>
        if !isContinuation c || !isContinuation d then .invalid
        else .success (lowBits b 4 * 4096 + lowBits c 6 * 64 + lowBits d 6) 3
      | _ => .incomplete
    else if b &&& 0x08 = 0 then
      match rest with
      | c :: d :: e :: _ =>
        if !isContinuation c || !isContinuation d || !isContinuation e then .invalid
        else .success
          (lowBits b 3 * 262144 + lowBits c 6 * 4096 + lowBits d 6 * 64 + lowBits e 6) 4
      | _ => .incomplete
    else .invalid

def parseUtf8Codepoint (input : List Byte) (offset : Nat) : Utf8Result :=
  firstCodepoint (input.drop offset)

variable {codepoint bytes offset : Nat} {u w : List Byte} {start : Nat} {delimiter : Byte}

theorem firstCodepoint_bytes {text : List Byte}
    (decoded : firstCodepoint text = .success codepoint bytes) :
    0 < bytes ∧ bytes ≤ text.length := by
  unfold firstCodepoint at decoded
  split at decoded
  · cases decoded
  · split_ifs at decoded
    · cases decoded
      simp
    · split at decoded
      · split_ifs at decoded
        cases decoded
        simp
      · cases decoded
    · split at decoded
      · split_ifs at decoded
        cases decoded
        simp
      · cases decoded
    · split at decoded
      · split_ifs at decoded
        cases decoded
        simp
      · cases decoded

theorem firstCodepoint_append {text : List Byte} (more : List Byte)
    (decided : firstCodepoint text ≠ .incomplete) :
    firstCodepoint (text ++ more) = firstCodepoint text := by
  cases text with
  | nil => exact absurd rfl decided
  | cons b rest =>
    rw [List.cons_append]
    simp only [firstCodepoint] at decided ⊢
    split_ifs with ascii continues two three four
    · rfl
    · rfl
    · rw [if_neg ascii, if_neg continues, if_pos two] at decided
      match rest, decided with
      | [], decided => exact absurd rfl decided
      | c :: _, _ => rfl
    · rw [if_neg ascii, if_neg continues, if_neg two, if_pos three] at decided
      match rest, decided with
      | [], decided => exact absurd rfl decided
      | [_], decided => exact absurd rfl decided
      | c :: d :: _, _ => rfl
    · rw [if_neg ascii, if_neg continues, if_neg two, if_neg three, if_pos four] at decided
      match rest, decided with
      | [], decided => exact absurd rfl decided
      | [_], decided => exact absurd rfl decided
      | [_, _], decided => exact absurd rfl decided
      | c :: d :: e :: _, _ => rfl
    · rfl

theorem parseUtf8Codepoint_bytes {input : List Byte}
    (decoded : parseUtf8Codepoint input offset = .success codepoint bytes) :
    0 < bytes ∧ offset + bytes ≤ input.length := by
  obtain ⟨positive, fits⟩ := firstCodepoint_bytes decoded
  rw [List.length_drop] at fits
  omega

theorem parseUtf8Codepoint_of_isPrefix (isPrefix : u <+: w)
    (decided : parseUtf8Codepoint u offset ≠ .incomplete) :
    parseUtf8Codepoint w offset = parseUtf8Codepoint u offset := by
  obtain ⟨more, rfl⟩ := isPrefix
  have inside : offset ≤ u.length := by
    by_contra beyond
    apply decided
    rw [parseUtf8Codepoint, List.drop_of_length_le (by omega)]
    rfl
  rw [parseUtf8Codepoint, List.drop_append_of_le_length inside]
  exact firstCodepoint_append more decided

theorem parseUtf8Codepoint_success_of_isPrefix (isPrefix : u <+: w)
    (decoded : parseUtf8Codepoint u offset = .success codepoint bytes) :
    parseUtf8Codepoint w offset = .success codepoint bytes :=
  (parseUtf8Codepoint_of_isPrefix isPrefix (by simp [decoded])).trans decoded

theorem parseUtf8Codepoint_invalid_of_isPrefix (isPrefix : u <+: w)
    (decoded : parseUtf8Codepoint u offset = .invalid) : parseUtf8Codepoint w offset = .invalid :=
  (parseUtf8Codepoint_of_isPrefix isPrefix (by simp [decoded])).trans decoded

theorem parseUtf8Codepoint_beyond {input : List Byte} (beyond : input.length ≤ offset) :
    parseUtf8Codepoint input offset = .incomplete := by
  rw [parseUtf8Codepoint, List.drop_of_length_le beyond]
  rfl

def bytesOf (text : String) : List Byte := text.toUTF8.toList

def Children.find? : Children → Nat → Option (Bool × Children)
  | nil, _ => none
  | node c isWord children others, ch => if ch = c then some (isWord, children) else others.find? ch

inductive MatchResult
  | noMatch
  | partialMatch
  | completeMatch
deriving DecidableEq

/-- The walk of `check_at` below a node; `moved` says that it is not the root. -/
def checkFrom (input : List Byte) (children : Children) (moved : Bool) (pos : Nat) : MatchResult :=
  let stopped := if moved then MatchResult.partialMatch else .noMatch
  if pos < input.length then
    match _decoded : parseUtf8Codepoint input pos with
    | .success codepoint bytesConsumed =>
      match children.find? codepoint with
      | none => .noMatch
      | some (isWord, below) =>
        if isWord then .completeMatch else checkFrom input below true (pos + bytesConsumed)
    | _ => stopped
  else stopped
termination_by input.length - pos
decreasing_by
  have := parseUtf8Codepoint_bytes _decoded
  omega

def Trie.checkAt (trie : Trie) (input : List Byte) (startPos : Nat) : MatchResult :=
  checkFrom input trie.children false startPos

/-- The code points that `trie::insert` reads from a word. -/
def codepointsFrom (word : List Byte) (pos : Nat) : List Nat :=
  match _decoded : parseUtf8Codepoint word pos with
  | .success codepoint bytesConsumed => codepoint :: codepointsFrom word (pos + bytesConsumed)
  | _ => []
termination_by word.length - pos
decreasing_by
  have := parseUtf8Codepoint_bytes _decoded
  omega

def trieOf (delimiters : List String) : Trie :=
  Trie.ofWords (delimiters.map fun delimiter => codepointsFrom (bytesOf delimiter) 0)

inductive ResultType
  | fail
  | success
  | needMoreInput
deriving DecidableEq

/-- `common_peg_ast_node`; the children are the nodes themselves. -/
inductive AstNode
  | mk (rule tag : String) (start end_ : Nat) (text : List Byte) (children : List AstNode)
      (isPartial : Bool)

structure ParseResult where
  type : ResultType
  start : Nat
  end_ : Nat
  nodes : List AstNode := []

def outOfInput (lenient : Bool) (start pos : Nat) : ParseResult :=
  if !lenient then ⟨.fail, start, start, []⟩ else ⟨.needMoreInput, start, pos, []⟩

/-- A success does not end before `pos`, and not after the input; in strict mode nothing
needs more input. -/
structure Regular (lenient : Bool) (input : List Byte) (pos : Nat) (result : ParseResult) : Prop where
  forward : result.type = .success → pos ≤ result.end_
  inside : result.type = .success → pos ≤ input.length → result.end_ ≤ input.length
  decided : result.type = .needMoreInput → lenient = true

section Regular

variable {input : List Byte} {lenient : Bool} {pos : Nat}

variable {result : ParseResult}

theorem Regular.fail (failed : result.type = .fail) : Regular lenient input pos result := by
  constructor <;> simp [failed]

theorem Regular.success (succeeded : result.type = .success) (stays : result.end_ = pos) :
    Regular lenient input pos result :=
  ⟨fun _ => stays.ge, fun _ inside => stays.trans_le inside, fun more => by simp [succeeded] at more⟩

theorem Regular.more (more : result.type = .needMoreInput) (mode : lenient = true) :
    Regular lenient input pos result :=
  ⟨fun success => by simp [more] at success, fun success => by simp [more] at success, fun _ => mode⟩

theorem Regular.after {later : Nat} (regular : Regular lenient input later result)
    (above : pos ≤ later) (fits : pos ≤ input.length → later ≤ input.length) :
    Regular lenient input pos result :=
  ⟨fun success => le_trans above (regular.forward success),
    fun success bound => regular.inside success (fits bound), regular.decided⟩

theorem outOfInput_regular {start other : Nat} :
    Regular lenient input pos (outOfInput lenient start other) := by
  cases lenient with
  | false => exact .fail rfl
  | true => exact .more rfl rfl

end Regular

def parseLiteral (lenient : Bool) (input : List Byte) (startPos : Nat) :
    List Byte → Nat → ParseResult
  | [], pos => ⟨.success, startPos, pos, []⟩
  | c :: rest, pos =>
    match input[pos]? with
    | none => outOfInput lenient startPos pos
    | some b =>
      if b ≠ c then ⟨.fail, startPos, startPos, []⟩
      else parseLiteral lenient input startPos rest (pos + 1)

def parseAny (lenient : Bool) (input : List Byte) (startPos : Nat) : ParseResult :=
  match parseUtf8Codepoint input startPos with
  | .incomplete => outOfInput lenient startPos startPos
  | .invalid => ⟨.fail, startPos, startPos, []⟩
  | .success _ bytesConsumed => ⟨.success, startPos, startPos + bytesConsumed, []⟩

/-- `std::isspace` in the C locale. -/
def isSpace (c : Byte) : Bool := c == 32 || (9 ≤ c && c ≤ 13)

def parseSpace (input : List Byte) (startPos pos : Nat) : ParseResult :=
  if _inside : pos < input.length then
    if isSpace input[pos] then parseSpace input startPos (pos + 1) else ⟨.success, startPos, pos, []⟩
  else ⟨.success, startPos, pos, []⟩
termination_by input.length - pos

/-- What a `common_peg_chars_parser` matches. -/
structure CharsSpec where
  ranges : List CharRange
  negated : Bool
  minCount : Int
  maxCount : Int

def CharsSpec.matches_ (spec : CharsSpec) (codepoint : Nat) : Bool :=
  let inRanges := spec.ranges.any fun range =>
    decide (range.start.toNat ≤ codepoint ∧ codepoint ≤ range.end_.toNat)
  if spec.negated then !inRanges else inRanges

def charsEnd (spec : CharsSpec) (lenient : Bool) (input : List Byte) (startPos pos matchCount : Nat) :
    ParseResult :=
  if matchCount < spec.minCount then
    if input.length ≤ pos ∧ lenient = true then ⟨.needMoreInput, startPos, pos, []⟩
    else ⟨.fail, startPos, pos, []⟩
  else ⟨.success, startPos, pos, []⟩

def parseChars (spec : CharsSpec) (lenient : Bool) (input : List Byte) (startPos pos matchCount : Nat) :
    ParseResult :=
  if spec.maxCount = -1 ∨ matchCount < spec.maxCount then
    match _decoded : parseUtf8Codepoint input pos with
    | .incomplete =>
      if spec.minCount ≤ matchCount then ⟨.success, startPos, pos, []⟩
      else outOfInput lenient startPos pos
    | .invalid =>
      if spec.minCount ≤ matchCount then ⟨.success, startPos, pos, []⟩
      else ⟨.fail, startPos, startPos, []⟩
    | .success codepoint bytesConsumed =>
      if spec.matches_ codepoint then
        parseChars spec lenient input startPos (pos + bytesConsumed) (matchCount + 1)
      else charsEnd spec lenient input startPos pos matchCount
  else charsEnd spec lenient input startPos pos matchCount
termination_by input.length - pos
decreasing_by
  have := parseUtf8Codepoint_bytes _decoded
  omega

def isHexDigit (c : Byte) : Bool :=
  (48 ≤ c && c ≤ 57) || (97 ≤ c && c ≤ 102) || (65 ≤ c && c ≤ 70)

/-- The loop of `handle_unicode_escape`. -/
def hexDigits (lenient : Bool) (input : List Byte) (start : Nat) : Nat → Nat → ParseResult
  | 0, pos => ⟨.success, start, pos, []⟩
  | n + 1, pos =>
    match input[pos]? with
    | none => outOfInput lenient start pos
    | some c =>
      if !isHexDigit c then ⟨.fail, start, start, []⟩
      else hexDigits lenient input start n (pos + 1)

def handleUnicodeEscape (lenient : Bool) (input : List Byte) (start pos : Nat) : ParseResult :=
  hexDigits lenient input start 4 (pos + 1)

/-- `handle_escape_sequence`, at the backslash; a success ends where `pos` is left. -/
def handleEscapeSequence (lenient : Bool) (input : List Byte) (start pos : Nat) (delimiter : Byte) :
    ParseResult :=
  match input[pos + 1]? with
  | none => outOfInput lenient start (pos + 1)
  | some c =>
    -- the characters \ / b f n r t
    if c = delimiter ∨ c ∈ ([92, 47, 98, 102, 110, 114, 116] : List Byte) then
      ⟨.success, start, pos + 2, []⟩
    else if c = 117 then handleUnicodeEscape lenient input start (pos + 1)
    else ⟨.fail, start, start, []⟩

theorem hexDigits_regular {lenient : Bool} {input : List Byte} (n : Nat) {pos : Nat} :
    Regular lenient input pos (hexDigits lenient input start n pos) := by
  induction n generalizing pos with
  | zero => exact .success rfl rfl
  | succ n ih =>
    simp only [hexDigits]
    cases byte : input[pos]? with
    | none => exact outOfInput_regular
    | some c =>
      have inside := (List.getElem?_eq_some_iff.mp byte).1
      simp only
      split_ifs
      · exact .fail rfl
      · exact ih.after (Nat.le_succ pos) fun _ => inside

theorem handleEscapeSequence_regular {lenient : Bool} {input : List Byte} {pos : Nat} :
    Regular lenient input pos (handleEscapeSequence lenient input start pos delimiter) := by
  unfold handleEscapeSequence
  cases byte : input[pos + 1]? with
  | none => exact outOfInput_regular
  | some c =>
    have inside := (List.getElem?_eq_some_iff.mp byte).1
    simp only
    split_ifs
    · exact (Regular.success rfl rfl).after (Nat.le_add_right pos 2) fun _ => inside
    · exact (hexDigits_regular 4).after (Nat.le_add_right pos 2) fun _ => inside
    · exact .fail rfl

theorem handleEscapeSequence_advances {lenient : Bool} {input : List Byte} {pos : Nat}
    (reads : (handleEscapeSequence lenient input start pos delimiter).type = .success) :
    pos + 2 ≤ (handleEscapeSequence lenient input start pos delimiter).end_ := by
  unfold handleEscapeSequence at reads ⊢
  cases byte : input[pos + 1]? with
  | none =>
    rw [byte] at reads
    cases lenient <;> cases reads
  | some c =>
    simp only [byte] at reads ⊢
    split_ifs at reads ⊢ with simple unicode
    · exact le_refl _
    · exact (hexDigits_regular 4).forward reads

def parseString (delimiter : Byte) (lenient : Bool) (input : List Byte) (startPos pos : Nat) :
    ParseResult :=
  if _inside : pos < input.length then
    if input[pos] = delimiter then ⟨.success, startPos, pos, []⟩
    else if input[pos] = 92 then
      let result := handleEscapeSequence lenient input startPos pos delimiter
      if _escaped : result.type = .success then
        parseString delimiter lenient input startPos result.end_
      else result
    else
      match _decoded : parseUtf8Codepoint input pos with
      | .incomplete => outOfInput lenient startPos pos
      | .invalid => ⟨.fail, startPos, startPos, []⟩
      | .success _ bytesConsumed =>
        parseString delimiter lenient input startPos (pos + bytesConsumed)
  else if !lenient then ⟨.fail, startPos, pos, []⟩
  else ⟨.needMoreInput, startPos, pos, []⟩
termination_by input.length - pos
decreasing_by
  · have := handleEscapeSequence_advances _escaped
    omega
  · have := parseUtf8Codepoint_bytes _decoded
    omega

/-- `last_valid_pos` is `pos` wherever it is read. -/
def parseUntil (matcher : Trie) (lenient : Bool) (input : List Byte) (startPos pos : Nat) :
    ParseResult :=
  if pos < input.length then
    match _decoded : parseUtf8Codepoint input pos with
    | .incomplete => outOfInput lenient startPos pos
    | .invalid => ⟨.fail, startPos, startPos, []⟩
    | .success _ bytesConsumed =>
      match matcher.checkAt input pos with
      | .completeMatch => ⟨.success, startPos, pos, []⟩
      | .partialMatch => ⟨.success, startPos, pos, []⟩
      | .noMatch => parseUntil matcher lenient input startPos (pos + bytesConsumed)
  else if pos = input.length ∧ lenient = true then ⟨.needMoreInput, startPos, pos, []⟩
  else ⟨.success, startPos, pos, []⟩
termination_by input.length - pos
decreasing_by
  have := parseUtf8Codepoint_bytes _decoded
  omega

theorem checkFrom_eq (input : List Byte) (children : Children) (moved : Bool) (pos : Nat) :
    checkFrom input children moved pos =
      if pos < input.length then
        match parseUtf8Codepoint input pos with
        | .success codepoint bytesConsumed =>
          match children.find? codepoint with
          | none => .noMatch
          | some (isWord, below) =>
            if isWord then .completeMatch else checkFrom input below true (pos + bytesConsumed)
        | _ => if moved then MatchResult.partialMatch else .noMatch
      else if moved then MatchResult.partialMatch else .noMatch := by
  rw [checkFrom]
  congr 1
  split <;> simp only [*]

theorem parseChars_eq (spec : CharsSpec) (lenient : Bool) (input : List Byte)
    (startPos pos matchCount : Nat) :
    parseChars spec lenient input startPos pos matchCount =
      if spec.maxCount = -1 ∨ matchCount < spec.maxCount then
        match parseUtf8Codepoint input pos with
        | .incomplete =>
          if spec.minCount ≤ matchCount then ⟨.success, startPos, pos, []⟩
          else outOfInput lenient startPos pos
        | .invalid =>
          if spec.minCount ≤ matchCount then ⟨.success, startPos, pos, []⟩
          else ⟨.fail, startPos, startPos, []⟩
        | .success codepoint bytesConsumed =>
          if spec.matches_ codepoint then
            parseChars spec lenient input startPos (pos + bytesConsumed) (matchCount + 1)
          else charsEnd spec lenient input startPos pos matchCount
      else charsEnd spec lenient input startPos pos matchCount := by
  rw [parseChars]
  congr 1
  split <;> simp only [*]

theorem parseString_backslash {lenient : Bool} {input : List Byte} {startPos pos : Nat}
    (inside : pos < input.length) (other : input[pos] ≠ delimiter) (backslash : input[pos] = 92) :
    parseString delimiter lenient input startPos pos =
      if (handleEscapeSequence lenient input startPos pos delimiter).type = .success then
        parseString delimiter lenient input startPos
          (handleEscapeSequence lenient input startPos pos delimiter).end_
      else handleEscapeSequence lenient input startPos pos delimiter := by
  rw [parseString, dif_pos inside, if_neg other, if_pos backslash]
  rfl

theorem parseString_plain {lenient : Bool} {input : List Byte} {startPos pos : Nat}
    (inside : pos < input.length) (other : input[pos] ≠ delimiter) (plain : input[pos] ≠ 92) :
    parseString delimiter lenient input startPos pos =
      match parseUtf8Codepoint input pos with
      | .incomplete => outOfInput lenient startPos pos
      | .invalid => ⟨.fail, startPos, startPos, []⟩
      | .success _ bytesConsumed =>
        parseString delimiter lenient input startPos (pos + bytesConsumed) := by
  rw [parseString, dif_pos inside, if_neg other, if_neg plain]
  split <;> simp only [*]

theorem parseUntil_eq (matcher : Trie) (lenient : Bool) (input : List Byte) (startPos pos : Nat) :
    parseUntil matcher lenient input startPos pos =
      if pos < input.length then
        match parseUtf8Codepoint input pos with
        | .incomplete => outOfInput lenient startPos pos
        | .invalid => ⟨.fail, startPos, startPos, []⟩
        | .success _ bytesConsumed =>
          match matcher.checkAt input pos with
          | .completeMatch => ⟨.success, startPos, pos, []⟩
          | .partialMatch => ⟨.success, startPos, pos, []⟩
          | .noMatch => parseUntil matcher lenient input startPos (pos + bytesConsumed)
      else if pos = input.length ∧ lenient = true then ⟨.needMoreInput, startPos, pos, []⟩
      else ⟨.success, startPos, pos, []⟩ := by
  rw [parseUntil]
  congr 1
  split <;> simp only [*]

section Scanners

variable {input : List Byte} {lenient : Bool} {startPos pos : Nat}

theorem parseLiteral_regular (literal : List Byte) :
    Regular lenient input pos (parseLiteral lenient input startPos literal pos) := by
  induction literal generalizing pos with
  | nil => exact .success rfl rfl
  | cons c rest ih =>
    simp only [parseLiteral]
    cases byte : input[pos]? with
    | none => exact outOfInput_regular
    | some b =>
      have inside := (List.getElem?_eq_some_iff.mp byte).1
      simp only
      split_ifs
      · exact .fail rfl
      · exact ih.after (Nat.le_succ pos) fun _ => inside

theorem parseAny_regular : Regular lenient input pos (parseAny lenient input pos) := by
  unfold parseAny
  split
  · exact outOfInput_regular
  · exact .fail rfl
  · rename_i bytes decoded
    obtain ⟨-, fits⟩ := parseUtf8Codepoint_bytes decoded
    exact (Regular.success rfl rfl).after (Nat.le_add_right pos bytes) fun _ => fits

theorem parseSpace_regular : Regular lenient input pos (parseSpace input startPos pos) := by
  fun_induction parseSpace input startPos pos with
  | case1 pos inside space ih => exact ih.after (Nat.le_succ pos) fun _ => inside
  | case2 pos inside other => exact .success rfl rfl
  | case3 pos beyond => exact .success rfl rfl

theorem charsEnd_regular {spec : CharsSpec} {matchCount : Nat} :
    Regular lenient input pos (charsEnd spec lenient input startPos pos matchCount) := by
  unfold charsEnd
  split_ifs with few ended
  · exact .more rfl ended.2
  · exact .fail rfl
  · exact .success rfl rfl

theorem parseChars_regular {spec : CharsSpec} {matchCount : Nat} :
    Regular lenient input pos (parseChars spec lenient input startPos pos matchCount) := by
  fun_induction parseChars spec lenient input startPos pos matchCount with
  | case1 pos matchCount more decoded enough => exact .success rfl rfl
  | case2 pos matchCount more decoded few => exact outOfInput_regular
  | case3 pos matchCount more decoded enough => exact .success rfl rfl
  | case4 pos matchCount more decoded few => exact .fail rfl
  | case5 pos matchCount more codepoint bytes decoded inClass ih =>
    exact ih.after (Nat.le_add_right pos bytes) fun _ => (parseUtf8Codepoint_bytes decoded).2
  | case6 => exact charsEnd_regular
  | case7 => exact charsEnd_regular

theorem parseString_regular {delimiter : Byte} :
    Regular lenient input pos (parseString delimiter lenient input startPos pos) := by
  fun_induction parseString delimiter lenient input startPos pos with
  | case1 => exact .success rfl rfl
  | case2 pos inside other backslash result escaped ih =>
    have sound : Regular lenient input pos result := handleEscapeSequence_regular
    exact ih.after (sound.forward escaped) (sound.inside escaped)
  | case3 pos inside other backslash result escaped =>
    have sound : Regular lenient input pos result := handleEscapeSequence_regular
    exact ⟨fun success => absurd success escaped, fun success => absurd success escaped,
      sound.decided⟩
  | case4 => exact outOfInput_regular
  | case5 => exact .fail rfl
  | case6 pos inside other plain codepoint bytes decoded ih =>
    exact ih.after (Nat.le_add_right pos bytes) fun _ => (parseUtf8Codepoint_bytes decoded).2
  | case7 => exact .fail rfl
  | case8 pos beyond mode => exact .more rfl (by simpa using mode)

theorem parseUntil_regular {matcher : Trie} :
    Regular lenient input pos (parseUntil matcher lenient input startPos pos) := by
  fun_induction parseUntil matcher lenient input startPos pos with
  | case1 => exact outOfInput_regular
  | case2 => exact .fail rfl
  | case3 => exact .success rfl rfl
  | case4 => exact .success rfl rfl
  | case5 pos inside codepoint bytes decoded unmatched ih =>
    exact ih.after (Nat.le_add_right pos bytes) fun _ => (parseUtf8Codepoint_bytes decoded).2
  | case6 pos beyond ended => exact .more rfl ended.2
  | case7 => exact .success rfl rfl

end Scanners

end LlamaCpp.Peg
