import LlamaCpp.Peg.Chars
import LlamaCpp.Schema.Gbnf

/-!
# The content of strings

The grammar of the string parser lets a space follow a backslash, and the parser does not.
-/

set_option autoImplicit false

namespace LlamaCpp.Peg

open LlamaCpp.Lib LlamaCpp.Schema List

/-- The characters `\/bfnrt`, which the parser takes after a backslash. -/
def parserEscapes : List Char := ['\\', '/', 'b', 'f', 'n', 'r', 't']

/-- The characters of the class that the grammar has there. -/
def grammarEscapes : List Char := ['\\', '/', ' ', 'b', 'f', 'n', 'r', 't']

/-- The grammar of `common_peg_string_parser`, for a delimiter that a class can hold as it is. -/
def gbnfString (delimiter : Char) : GbnfExpr :=
  .star (.alt [.notClass [delimiter.toNat, backslash],
    .seq (.literal [backslash]) (.alt [oneOf ((delimiter :: grammarEscapes).map Char.toNat),
      .seq (.literal ['u'.toNat]) (repeated hexClass 4 4)])])

/-- The delimiter is a character of one byte that does not end or negate a class. -/
structure ClassDelimiter (delimiter : Char) : Prop where
  ascii : delimiter.toNat < 128
  plain : delimiter ∉ ['\\', ']', '^', Char.ofNat 0]

def IsHex (c : Char) : Prop := c.toNat ∈ codes "0123456789abcdefABCDEF"

/-- Other characters than delimiter and backslash, escapes, and code units. -/
inductive Content (delimiter : Char) (escapes : List Char) : List Char → Prop
  | nil : Content delimiter escapes []
  | plain {c : Char} {text : List Char} (other : c ≠ delimiter) (single : c ≠ '\\')
      (more : Content delimiter escapes text) : Content delimiter escapes (c :: text)
  | escape {e : Char} {text : List Char} (simple : e = delimiter ∨ e ∈ escapes)
      (more : Content delimiter escapes text) : Content delimiter escapes ('\\' :: e :: text)
  | unit {digits text : List Char} (four : digits.length = 4) (hex : ∀ x ∈ digits, IsHex x)
      (more : Content delimiter escapes text) :
      Content delimiter escapes ('\\' :: 'u' :: (digits ++ text))

/-- A backslash that begins an escape and has a space after it. -/
def SpaceEscape : List Char → Prop
  | [] => False
  | [_] => False
  | c :: e :: text => if c = '\\' then e = ' ' ∨ SpaceEscape text else SpaceEscape (e :: text)

/-- The parser reads the text up to the delimiter behind it. -/
def Accepted (delimiter : Char) (text : List Char) : Prop :=
  parseString (UInt8.ofNat delimiter.toNat) false (encode (text ++ [delimiter])) 0 0 =
    ⟨.success, 0, (encode text).length, []⟩

variable {delimiter c : Char} {escapes text : List Char} {front : List Byte}

theorem generates_hex (digits : List Char) :
    Generates (repeated hexClass 4 4) (digits.map Char.toNat) ↔
      digits.length = 4 ∧ ∀ x ∈ digits, IsHex x := by
  rw [hexClass, generates_repeated, length_map, forall_mem_map, and_comm]
  exact and_congr (by omega) Iff.rfl

theorem eq_of_toNat {d : Char} (same : c.toNat = d.toNat) : c = d := Char.toNat_inj.mp same

theorem Content.generates (content : Content delimiter grammarEscapes text) :
    Generates (gbnfString delimiter) (text.map Char.toNat) := by
  induction content with
  | nil => exact .starNil _
  | @plain c text other single _ ih =>
    refine .starMore (.alt mem_cons_self (.notClass ?_)) ih
    rw [mem_cons, mem_singleton, not_or]
    exact ⟨fun same => other (eq_of_toNat same), fun same => single (eq_of_toNat same)⟩
  | @escape e text simple _ ih =>
    refine .starMore (u := [backslash, e.toNat]) (.alt (mem_cons_of_mem _ mem_cons_self) ?_) ih
    refine .seq (.literal _) (.alt mem_cons_self (generates_oneOf.mpr ⟨_, ?_, rfl⟩))
    exact mem_map_of_mem (mem_cons.mpr simple)
  | @unit digits text four hex _ ih =>
    rw [map_cons, map_cons, map_append]
    refine .starMore (u := backslash :: 'u'.toNat :: digits.map Char.toNat)
      (.alt (mem_cons_of_mem _ mem_cons_self) ?_) ih
    exact .seq (.literal _) (.alt (mem_cons_of_mem _ mem_cons_self)
      (.seq (.literal _) ((generates_hex digits).mpr ⟨four, hex⟩)))

theorem content_of_generates {codes_ : List Nat} (generated : Generates (gbnfString delimiter) codes_) :
    ∀ text : List Char, text.map Char.toNat = codes_ → Content delimiter grammarEscapes text := by
  generalize shape : gbnfString delimiter = expr at generated
  induction generated with
  | starNil =>
    intro text same
    rw [map_eq_nil_iff.mp same]
    exact .nil
  | @starMore body u v once _ _ ih =>
    intro text same
    obtain ⟨first, rest, rfl, rfl, rfl⟩ := map_eq_append_iff.mp same
    have more := ih shape rest rfl
    rw [gbnfString, GbnfExpr.star.injEq] at shape
    subst shape
    obtain ⟨option_, member, once⟩ := generates_alt.mp once
    simp only [mem_cons, not_mem_nil, or_false] at member
    rcases member with rfl | rfl
    · generalize firstCodes : first.map Char.toNat = u at once
      cases once with
      | notClass outside =>
        obtain ⟨c, rfl, rfl⟩ := map_eq_singleton_iff.mp firstCodes
        rw [mem_cons, mem_singleton, not_or] at outside
        exact .plain (fun same => outside.1 (congrArg _ same)) (fun same => outside.2 (congrArg _ same)) more
    · obtain ⟨tail, tailCodes, inner⟩ := generates_literal_seq.mp once
      obtain ⟨c, first, rfl, single, rfl⟩ := map_eq_cons_iff.mp tailCodes
      obtain rfl : c = '\\' := eq_of_toNat single
      obtain ⟨option_, member, once⟩ := generates_alt.mp inner
      simp only [mem_cons, not_mem_nil, or_false] at member
      rcases member with rfl | rfl
      · obtain ⟨code, isCode, tailIs⟩ := generates_oneOf.mp once
        obtain ⟨e, rfl, rfl⟩ := map_eq_singleton_iff.mp tailIs
        obtain ⟨d, isEscape, same⟩ := mem_map.mp isCode
        obtain rfl := eq_of_toNat same
        exact .escape (mem_cons.mp isEscape) more
      · obtain ⟨digitCodes, tailIs, units⟩ := generates_literal_seq.mp once
        obtain ⟨c, digits, rfl, single, rfl⟩ := map_eq_cons_iff.mp tailIs
        obtain rfl : c = 'u' := eq_of_toNat single
        obtain ⟨four, hex⟩ := (generates_hex digits).mp units
        exact .unit four hex more
  | _ => cases shape

theorem generates_iff_content : Generates (gbnfString delimiter) (text.map Char.toNat) ↔
    Content delimiter grammarEscapes text :=
  ⟨fun generated => content_of_generates generated text rfl, Content.generates⟩

theorem spaceEscape_cons (single : c ≠ '\\') : SpaceEscape (c :: text) ↔ SpaceEscape text := by
  cases text with
  | nil => rfl
  | cons e text => rw [SpaceEscape, if_neg single]

theorem IsHex.single (hex : IsHex c) : c ≠ '\\' := by
  rintro rfl
  exact absurd hex (by unfold IsHex; decide +kernel)

theorem spaceEscape_digits {digits : List Char} (hex : ∀ x ∈ digits, IsHex x) :
    SpaceEscape (digits ++ text) ↔ SpaceEscape text := by
  induction digits with
  | nil => rfl
  | cons c digits ih =>
    rw [forall_mem_cons] at hex
    rw [cons_append, spaceEscape_cons hex.1.single, ih hex.2]

theorem mem_grammarEscapes : c ∈ grammarEscapes ↔ c = ' ' ∨ c ∈ parserEscapes := by
  simp only [grammarEscapes, parserEscapes, mem_cons]
  tauto

/-- By induction on the content: what the parser takes has no such space, but as its delimiter. -/
theorem Content.no_space (content : Content delimiter parserEscapes text) :
    Content delimiter grammarEscapes text ∧ (delimiter = ' ' ∨ ¬SpaceEscape text) := by
  induction content with
  | nil => exact ⟨.nil, Or.inr id⟩
  | plain other single _ ih =>
    rw [spaceEscape_cons single]
    exact ⟨.plain other single ih.1, ih.2⟩
  | @escape e text simple _ ih =>
    refine ⟨.escape (simple.imp_right fun member => mem_grammarEscapes.mpr (Or.inr member)) ih.1, ?_⟩
    rw [SpaceEscape, if_pos rfl]
    rcases simple with rfl | member
    · tauto
    · refine ih.2.imp_right fun none_ => not_or.mpr ⟨?_, none_⟩
      rintro rfl
      exact absurd member (by decide)
  | @unit digits text four hex _ ih =>
    refine ⟨.unit four hex ih.1, ?_⟩
    rw [SpaceEscape, spaceEscape_digits hex]
    exact ih.2.imp_right fun none_ => not_or.mpr ⟨by decide, none_⟩

theorem Content.of_no_space (content : Content delimiter grammarEscapes text)
    (noSpace : delimiter = ' ' ∨ ¬SpaceEscape text) : Content delimiter parserEscapes text := by
  induction content with
  | nil => exact .nil
  | plain other single _ ih =>
    rw [spaceEscape_cons single] at noSpace
    exact .plain other single (ih noSpace)
  | @escape e text simple _ ih =>
    rw [SpaceEscape, if_pos rfl, not_or] at noSpace
    refine .escape ?_ (ih (noSpace.imp_right And.right))
    rw [mem_grammarEscapes] at simple
    rcases simple with same | rfl | member
    · exact Or.inl same
    · exact Or.inl (noSpace.resolve_right fun none_ => none_.1 rfl).symm
    · exact Or.inr member
  | @unit digits text four hex _ ih =>
    rw [SpaceEscape, if_pos rfl, spaceEscape_digits hex, not_or] at noSpace
    exact .unit four hex (ih (noSpace.imp_right And.right))

/-- The first byte of a character, and how it is told from an ASCII character. -/
theorem exists_lead (c : Char) : ∃ b tail, String.utf8EncodeChar c = b :: tail ∧
    (∀ d : Char, d.toNat < 128 → (b = UInt8.ofNat d.toNat ↔ c = d)) ∧ (c.toNat < 128 → tail = []) := by
  have ascii : ∀ d : Byte, d.toNat < 128 → d &&& 0x80 = 0 := fun d => forall_byte
    (P := fun d => d.toNat < 128 → d &&& 0x80 = 0) (by decide +kernel) d
  have small : ∀ d : Char, d.toNat < 128 → String.utf8EncodeChar d = [UInt8.ofNat d.toNat] := by
    intro d below
    exact if_pos (Nat.le_of_lt_succ below)
  cases bytes : String.utf8EncodeChar c with
  | nil => exact absurd bytes String.utf8EncodeChar_ne_nil
  | cons b tail =>
    refine ⟨b, tail, rfl, fun d below => ⟨?_, fun same => ?_⟩, fun below => ?_⟩
    · rintro rfl
      have decoded := firstCodepoint_encode c []
      have value : (UInt8.ofNat d.toNat).toNat = d.toNat := by
        rw [UInt8.toNat_ofNat']
        omega
      rw [bytes] at decoded
      simp only [cons_append, firstCodepoint, if_pos (ascii _ (value ▸ below)), value] at decoded
      injection decoded with same
      exact eq_of_toNat same.symm
    · rw [same, small d below] at bytes
      injection bytes with head
      exact head.symm
    · rw [small c below] at bytes
      injection bytes with _ rest
      exact rest.symm

theorem getElem?_encode {b : Byte} {tail : List Byte} (bytes : String.utf8EncodeChar c = b :: tail) :
    (front ++ encode (c :: text))[front.length]? = some b := by
  rw [encode_cons, bytes]
  simp

theorem append_encode_cons (front : List Byte) (c : Char) (text : List Char) :
    front ++ encode (c :: text) = (front ++ String.utf8EncodeChar c) ++ encode text := by
  rw [encode_cons, append_assoc]

theorem hexCodes_iff (b : Byte) : isHexDigit b = true ↔ b.toNat ∈ codes "0123456789abcdefABCDEF" :=
  forall_byte (P := fun b => isHexDigit b = true ↔ b.toNat ∈ codes "0123456789abcdefABCDEF")
    (by decide +kernel) b

theorem hexCodes_ascii : ∀ x ∈ codes "0123456789abcdefABCDEF", x < 128 := by decide +kernel

theorem toNat_ofNat {n : Nat} (below : n < 128) : (Char.ofNat n).toNat = n := by
  have all : ∀ n : Fin 128, (Char.ofNat n).toNat = n := by decide +kernel
  exact all ⟨n, below⟩

theorem isHexDigit_iff {b : Byte}
    (lead : ∀ d : Char, d.toNat < 128 → (b = UInt8.ofNat d.toNat ↔ c = d)) :
    isHexDigit b = true ↔ IsHex c := by
  rw [hexCodes_iff]
  constructor
  · intro member
    have value := toNat_ofNat (hexCodes_ascii _ member)
    have same := (lead (Char.ofNat b.toNat) (value.symm ▸ hexCodes_ascii _ member)).mp
      (by rw [value, UInt8.ofNat_toNat])
    rw [same, IsHex, value]
    exact member
  · intro hex
    have below := hexCodes_ascii _ hex
    rw [(lead c below).mpr rfl, UInt8.toNat_ofNat']
    rwa [Nat.mod_eq_of_lt (by omega)]

/-- The loop of a code unit succeeds behind hexadecimal digits, and only there. -/
theorem hexDigits_success_iff {start n : Nat} {front : List Byte} {text : List Char} :
    (hexDigits false (front ++ encode text) start n front.length).type = .success ↔
      n ≤ text.length ∧ ∀ x ∈ text.take n, IsHex x := by
  induction n generalizing front text with
  | zero => simp [hexDigits]
  | succ n ih =>
    cases text with
    | nil => simp [hexDigits, outOfInput]
    | cons c text =>
      obtain ⟨b, tail, bytes, lead, ascii⟩ := exists_lead c
      rw [hexDigits, getElem?_encode bytes]
      dsimp only
      by_cases hex : IsHex c
      · have next := @ih (front ++ String.utf8EncodeChar c) text
        rw [← append_encode_cons, length_append, bytes, ascii (hexCodes_ascii _ hex),
          length_singleton] at next
        rw [(isHexDigit_iff lead).mpr hex, Bool.not_true, if_neg Bool.false_ne_true, next]
        simp [hex]
      · have other : isHexDigit b = false := Bool.eq_false_iff.mpr fun yes => hex ((isHexDigit_iff lead).mp yes)
        rw [other, Bool.not_false]
        simp [hex]

theorem hexDigits_end {input : List Byte} {start n pos : Nat}
    (success : (hexDigits false input start n pos).type = .success) :
    hexDigits false input start n pos = ⟨.success, start, pos + n, []⟩ := by
  induction n generalizing pos with
  | zero => rfl
  | succ n ih =>
    rw [hexDigits] at success ⊢
    split at success
    · cases success
    · split at success
      · cases success
      · next digit => rw [if_neg digit, ih success, Nat.add_right_comm, Nat.add_assoc]

abbrev byteOf (c : Char) : Byte := UInt8.ofNat c.toNat

theorem length_ascii (ascii : c.toNat < 128) : (String.utf8EncodeChar c).length = 1 := by
  obtain ⟨b, tail, bytes, -, none_⟩ := exists_lead c
  rw [bytes, none_ ascii, length_singleton]

theorem parserEscapes_ascii (member : c ∈ parserEscapes) : c.toNat < 128 := by
  have all : parserEscapes.all (fun d => decide (d.toNat < 128)) = true := rfl
  exact of_decide_eq_true (all_eq_true.mp all c member)

theorem handleEscapeSequence_encode (start : Nat) (ascii : delimiter.toNat < 128) (e : Char)
    (rest : List Char) :
    handleEscapeSequence false (front ++ encode ('\\' :: e :: rest)) start front.length (byteOf delimiter) =
      if e = delimiter ∨ e ∈ parserEscapes then ⟨.success, start, front.length + 2, []⟩
      else if e = 'u' then
        hexDigits false (front ++ encode ('\\' :: e :: rest)) start 4 (front.length + 2)
      else ⟨.fail, start, start, []⟩ := by
  obtain ⟨b, tail, bytes, lead, -⟩ := exists_lead e
  have here := @getElem?_encode e rest (front ++ String.utf8EncodeChar '\\') b tail bytes
  rw [← append_encode_cons, length_append, length_ascii (by decide)] at here
  have simple : b ∈ ([92, 47, 98, 102, 110, 114, 116] : List Byte) ↔ e ∈ parserEscapes := by
    have codes_ : ([92, 47, 98, 102, 110, 114, 116] : List Byte) = parserEscapes.map byteOf := by
      decide
    rw [codes_, mem_map]
    constructor
    · rintro ⟨d, member, same⟩
      rwa [(lead d (parserEscapes_ascii member)).mp same.symm]
    · exact fun member => ⟨e, member, ((lead e (parserEscapes_ascii member)).mpr rfl).symm⟩
  have unicode : b = 117 ↔ e = 'u' := lead 'u' (by decide)
  simp only [handleEscapeSequence, here, lead delimiter ascii, simple, unicode, handleUnicodeEscape]

theorem parseString_close (start : Nat) (ascii : delimiter.toNat < 128) :
    parseString (byteOf delimiter) false (front ++ encode (delimiter :: text)) start front.length =
      ⟨.success, start, front.length, []⟩ := by
  obtain ⟨b, tail, bytes, lead, -⟩ := exists_lead delimiter
  obtain ⟨inside, byte⟩ := List.getElem?_eq_some_iff.mp (@getElem?_encode delimiter text front b tail bytes)
  rw [parseString, dif_pos inside, if_pos (byte.trans ((lead delimiter ascii).mpr rfl))]

theorem parseString_end (start : Nat) (input : List Byte) (delimiter : Byte) :
    (parseString delimiter false input start input.length).type = .fail := by
  rw [parseString, dif_neg (lt_irrefl _)]
  rfl

theorem parseString_char (start : Nat) (ascii : delimiter.toNat < 128) (other : c ≠ delimiter)
    (single : c ≠ '\\') :
    parseString (byteOf delimiter) false (front ++ encode (c :: text)) start front.length =
      parseString (byteOf delimiter) false ((front ++ String.utf8EncodeChar c) ++ encode text) start
        (front ++ String.utf8EncodeChar c).length := by
  obtain ⟨b, tail, bytes, lead, -⟩ := exists_lead c
  obtain ⟨inside, byte⟩ := List.getElem?_eq_some_iff.mp (@getElem?_encode c text front b tail bytes)
  rw [parseString_plain inside (fun same => other ((lead delimiter ascii).mp (byte.symm.trans same)))
    (fun same => single ((lead '\\' (by decide)).mp (byte.symm.trans same))), parseUtf8Codepoint_encode,
    ← append_encode_cons, length_append, String.length_utf8EncodeChar]

theorem parseString_escape (start : Nat) (ascii : delimiter.toNat < 128) (other : '\\' ≠ delimiter) :
    parseString (byteOf delimiter) false (front ++ encode ('\\' :: text)) start front.length =
      let result := handleEscapeSequence false (front ++ encode ('\\' :: text)) start front.length
        (byteOf delimiter)
      if result.type = .success then
        parseString (byteOf delimiter) false (front ++ encode ('\\' :: text)) start result.end_
      else result := by
  obtain ⟨b, tail, bytes, lead, -⟩ := exists_lead '\\'
  obtain ⟨inside, byte⟩ := List.getElem?_eq_some_iff.mp (@getElem?_encode '\\' text front b tail bytes)
  exact parseString_backslash inside
    (fun same => other ((lead delimiter ascii).mp (byte.symm.trans same)))
    (byte.trans ((lead '\\' (by decide)).mpr rfl))

theorem length_encode_ascii (ascii : c.toNat < 128) :
    (encode (c :: text)).length = (encode text).length + 1 := by
  rw [encode_cons, length_append, length_ascii ascii, Nat.add_comm]

theorem escape_ascii (ascii : delimiter.toNat < 128) {e : Char}
    (simple : e = delimiter ∨ e ∈ parserEscapes) : e.toNat < 128 := by
  rcases simple with rfl | member
  · exact ascii
  · exact parserEscapes_ascii member

/-- Behind an escape of one character the loop goes on with the rest. -/
theorem parseString_simple (start : Nat) (ascii : delimiter.toNat < 128) (other : '\\' ≠ delimiter)
    {e : Char} (simple : e = delimiter ∨ e ∈ parserEscapes) :
    ∃ next, next.length = front.length + 2 ∧
      parseString (byteOf delimiter) false (front ++ encode ('\\' :: e :: text)) start front.length =
        parseString (byteOf delimiter) false (next ++ encode text) start next.length := by
  have small := escape_ascii ascii simple
  refine ⟨(front ++ String.utf8EncodeChar '\\') ++ String.utf8EncodeChar e, ?_, ?_⟩
  · rw [length_append, length_append, length_ascii (by decide), length_ascii small]
  · rw [parseString_escape start ascii other, handleEscapeSequence_encode start ascii, if_pos simple]
    simp only [if_true]
    rw [← append_encode_cons, ← append_encode_cons, length_append, length_append,
      length_ascii (by decide), length_ascii small]

theorem length_encode_hex {digits : List Char} (hex : ∀ x ∈ digits, IsHex x) :
    (encode digits).length = digits.length := by
  induction digits with
  | nil => rfl
  | cons c digits ih =>
    rw [forall_mem_cons] at hex
    rw [length_encode_ascii (hexCodes_ascii _ hex.1), ih hex.2, length_cons]

/-- Behind a code unit too. -/
theorem parseString_unit (start : Nat) (ascii : delimiter.toNat < 128) (other : '\\' ≠ delimiter)
    (notSimple : ¬('u' = delimiter ∨ 'u' ∈ parserEscapes)) (long : 4 ≤ text.length)
    (hex : ∀ x ∈ text.take 4, IsHex x) :
    ∃ next, next.length = front.length + 6 ∧
      parseString (byteOf delimiter) false (front ++ encode ('\\' :: 'u' :: text)) start front.length =
        parseString (byteOf delimiter) false (next ++ encode (text.drop 4)) start next.length := by
  let two := (front ++ String.utf8EncodeChar '\\') ++ String.utf8EncodeChar 'u'
  have input : front ++ encode ('\\' :: 'u' :: text) = two ++ encode text := by
    rw [append_encode_cons, append_encode_cons]
  have length : two.length = front.length + 2 := by
    rw [length_append, length_append, length_ascii (by decide), length_ascii (by decide)]
  have success := (@hexDigits_success_iff start 4 two text).mpr ⟨long, hex⟩
  have ends := hexDigits_end success
  rw [← input, length] at success ends
  have digits : (encode (text.take 4)).length = 4 := by
    rw [length_encode_hex hex, length_take]
    omega
  refine ⟨two ++ encode (text.take 4), by rw [length_append, digits, length], ?_⟩
  rw [parseString_escape start ascii other, handleEscapeSequence_encode start ascii, if_neg notSimple]
  simp only [success, if_true]
  rw [ends, append_assoc, ← encode_append, take_append_drop, ← input, length_append, digits, length]

/-- Without a code unit the digits are characters like others. -/
theorem parseString_digits (start : Nat) {digits : List Char} (hex : ∀ x ∈ digits, IsHex x)
    (front : List Byte) :
    ∃ next, next.length = front.length + digits.length ∧
      parseString (byteOf 'u') false (front ++ encode (digits ++ text)) start front.length =
        parseString (byteOf 'u') false (next ++ encode text) start next.length := by
  induction digits generalizing front with
  | nil => exact ⟨front, rfl, rfl⟩
  | cons c digits ih =>
    rw [forall_mem_cons] at hex
    have other : c ≠ 'u' := by
      rintro rfl
      exact absurd hex.1 (by unfold IsHex; decide +kernel)
    obtain ⟨next, length, same⟩ := ih hex.2 (front ++ String.utf8EncodeChar c)
    refine ⟨next, ?_, ?_⟩
    · rw [length, length_append, length_ascii (hexCodes_ascii _ hex.1), length_cons]
      omega
    · rw [cons_append, parseString_char start (by decide) other hex.1.single, same]

/-- By induction on the content: each piece is read, and the loop goes on behind it. -/
theorem Content.accepted (plain : ClassDelimiter delimiter)
    (content : Content delimiter parserEscapes text) (start : Nat) (front : List Byte) :
    parseString (byteOf delimiter) false (front ++ encode (text ++ [delimiter])) start front.length =
      ⟨.success, start, front.length + (encode text).length, []⟩ := by
  have other : '\\' ≠ delimiter := fun same => plain.plain (same ▸ mem_cons_self)
  induction content generalizing front with
  | nil => exact parseString_close start plain.ascii
  | plain differs single _ ih =>
    rw [cons_append, parseString_char start plain.ascii differs single, ih, length_append, encode_cons,
      length_append, Nat.add_assoc]
  | @escape e text simple _ ih =>
    obtain ⟨next, length, same⟩ := @parseString_simple delimiter (text ++ [delimiter]) front start
      plain.ascii other e simple
    rw [cons_append, cons_append, same, ih, length_encode_ascii (by decide),
      length_encode_ascii (escape_ascii plain.ascii simple)]
    congr 1
    omega
  | @unit digits text four hex _ ih =>
    have size : (encode ('\\' :: 'u' :: (digits ++ text))).length = (encode text).length + 6 := by
      rw [length_encode_ascii (by decide), length_encode_ascii (by decide), encode_append, length_append,
        length_encode_hex hex]
      omega
    by_cases simple : 'u' = delimiter ∨ 'u' ∈ parserEscapes
    · obtain rfl := simple.resolve_right (by decide)
      obtain ⟨first, firstLength, same⟩ := @parseString_simple 'u' (digits ++ (text ++ ['u'])) front
        start plain.ascii other 'u' simple
      obtain ⟨next, length, more⟩ := @parseString_digits (text ++ ['u']) start digits hex first
      rw [cons_append, cons_append, append_assoc, same, more, ih, length, four]
      congr 1
      omega
    · obtain ⟨next, length, same⟩ := @parseString_unit delimiter (digits ++ (text ++ [delimiter])) front
        start plain.ascii other simple (by rw [length_append]; omega)
        (by rwa [take_append_of_le_length four.ge, take_of_length_le four.le])
      rw [cons_append, cons_append, append_assoc, same, drop_append_of_le_length four.ge,
        drop_of_length_le four.le, nil_append, ih]
      congr 1
      omega

theorem unit_reads {start : Nat} {text : List Char}
    (reads : (hexDigits false (front ++ encode ('\\' :: 'u' :: text)) start 4 (front.length + 2)).type =
      .success) : 4 ≤ text.length ∧ ∀ x ∈ text.take 4, IsHex x := by
  have success := @hexDigits_success_iff start 4
    ((front ++ String.utf8EncodeChar '\\') ++ String.utf8EncodeChar 'u') text
  rw [← append_encode_cons, ← append_encode_cons, length_append, length_append, length_ascii (by decide)] at success
  exact success.mp reads

/-- By induction on the length: where the loop stops at the delimiter behind the text, each piece of
the text is one that it reads. -/
theorem content_of_accepted (plain : ClassDelimiter delimiter) (start : Nat)
    (accepted : parseString (byteOf delimiter) false (front ++ encode (text ++ [delimiter])) start
      front.length = ⟨.success, start, front.length + (encode text).length, []⟩) :
    Content delimiter parserEscapes text := by
  have other : '\\' ≠ delimiter := fun same => plain.plain (same ▸ mem_cons_self)
  have atEnd : ∀ next : List Byte, ∀ result, (parseString (byteOf delimiter) false
      (next ++ encode []) start next.length) = result → result.type = .fail := by
    rintro next _ rfl
    rw [encode_nil, append_nil]
    exact parseString_end start next _
  induction size : text.length using Nat.strong_induction_on generalizing text front with
  | _ size ih =>
    subst size
    cases text with
    | nil => exact .nil
    | cons c text =>
      rw [cons_append] at accepted
      by_cases close : c = delimiter
      · subst close
        rw [parseString_close start plain.ascii, length_encode_ascii plain.ascii] at accepted
        injection accepted
        omega
      by_cases single : c = '\\'
      · subst single
        cases text with
        | nil =>
          obtain ⟨next, -, same⟩ := @parseString_simple delimiter [] front start plain.ascii other
            delimiter (Or.inl rfl)
          cases atEnd next _ (same.symm.trans accepted)
        | cons e text =>
          rw [cons_append] at accepted
          by_cases simple : e = delimiter ∨ e ∈ parserEscapes
          · obtain ⟨next, length, same⟩ := @parseString_simple delimiter (text ++ [delimiter]) front
              start plain.ascii other e simple
            refine .escape simple (@ih _ (by rw [length_cons, length_cons]; omega) text next ?_ rfl)
            rw [← same, accepted, length_encode_ascii (by decide),
              length_encode_ascii (escape_ascii plain.ascii simple)]
            congr 1
            omega
          · have reads : (handleEscapeSequence false (front ++ encode ('\\' :: e :: (text ++ [delimiter])))
                start front.length (byteOf delimiter)).type = .success := by
              by_contra fails
              rw [parseString_escape start plain.ascii other, if_neg fails] at accepted
              exact fails (congrArg ParseResult.type accepted)
            rw [handleEscapeSequence_encode start plain.ascii, if_neg simple] at reads
            split at reads
            · next unicode =>
              subst unicode
              obtain ⟨long, hex⟩ := unit_reads reads
              obtain ⟨next, length, same⟩ := @parseString_unit delimiter (text ++ [delimiter]) front
                start plain.ascii other simple long hex
              by_cases enough : 4 ≤ text.length
              · rw [take_append_of_le_length enough] at hex
                rw [drop_append_of_le_length enough] at same
                have four : (text.take 4).length = 4 := by
                  rw [length_take]
                  omega
                have more := @ih _ (by rw [length_drop, length_cons, length_cons]; omega) (text.drop 4) next (by
                  rw [← same, accepted, length_encode_ascii (by decide),
                    length_encode_ascii (by decide)]
                  nth_rewrite 1 [← take_append_drop 4 text]
                  rw [encode_append, length_append, length_encode_hex hex]
                  congr 1
                  omega) rfl
                have unit := Content.unit four hex more
                rwa [take_append_drop] at unit
              · rw [drop_of_length_le (by rw [length_append, length_singleton]; omega)] at same
                cases atEnd next _ (same.symm.trans accepted)
            · cases reads
      · refine .plain close single (@ih _ (by simp) text (front ++ String.utf8EncodeChar c) ?_ rfl)
        rw [← parseString_char start plain.ascii close single, accepted, encode_cons, length_append,
          length_append, Nat.add_assoc]

theorem accepted_iff_content (plain : ClassDelimiter delimiter) :
    Accepted delimiter text ↔ Content delimiter parserEscapes text := by
  constructor
  · intro accepted
    exact @content_of_accepted delimiter text [] plain 0 (by rw [length_nil, Nat.zero_add]; exact accepted)
  · intro content
    have accepted := content.accepted plain 0 []
    rwa [length_nil, Nat.zero_add] at accepted

/-- What the parser accepts is generated, and what is generated is accepted, unless a space follows
a backslash that begins an escape. -/
theorem stringContent_agrees (plain : ClassDelimiter delimiter) (text : List Char) :
    (Accepted delimiter text → Generates (gbnfString delimiter) (text.map Char.toNat)) ∧
      (Generates (gbnfString delimiter) (text.map Char.toNat) →
        (Accepted delimiter text ↔ delimiter = ' ' ∨ ¬SpaceEscape text)) := by
  rw [accepted_iff_content plain, generates_iff_content]
  exact ⟨fun accepted => accepted.no_space.1, fun generated =>
    ⟨fun accepted => accepted.no_space.2, generated.of_no_space⟩⟩

theorem classDelimiter_quote : ClassDelimiter '"' := ⟨by decide, by decide⟩

theorem stringContent_agrees_at_quote :
    (Accepted '"' ['a'] → Generates (gbnfString '"') (['a'].map Char.toNat)) ∧
      (Generates (gbnfString '"') (['a'].map Char.toNat) →
        (Accepted '"' ['a'] ↔ '"' = ' ' ∨ ¬SpaceEscape ['a'])) :=
  stringContent_agrees classDelimiter_quote ['a']

/-- The grammar of double-quoted strings generates a backslash with a space behind it. -/
theorem space_escape_generated :
    Generates (gbnfString '"') (['\\', ' '].map Char.toNat) ∧ ¬Accepted '"' ['\\', ' '] := by
  have content : Content '"' grammarEscapes ['\\', ' '] := .escape (Or.inr (by decide)) .nil
  refine ⟨content.generates, fun accepted => ?_⟩
  have noSpace := ((accepted_iff_content classDelimiter_quote).mp accepted).no_space.2
  exact noSpace.elim (by decide) fun none_ => none_ (Or.inl rfl)

end LlamaCpp.Peg
