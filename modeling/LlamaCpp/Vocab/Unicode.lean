import LlamaCpp.Lib.Bytes
import LlamaCpp.Lib.Ensures
import LlamaCpp.Lib.Utf8
import Mathlib.Data.Nat.Bitwise

/-!
# Code points and encoded bytes

Text is read as code points and written again, and every byte has a printable character that
stands for it in the vocabulary.
-/

set_option autoImplicit false

namespace LlamaCpp.Vocab

open LlamaCpp.Lib List

def unicodeLenUtf8 (src : UInt8) : Nat :=
  [1, 1, 1, 1, 1, 1, 1, 1, 1, 1, 1, 1, 2, 2, 3, 4].getD (src.toNat >>> 4) 0

def markedByte (mark value bits : Nat) : UInt8 := UInt8.ofNat (mark ||| (value &&& (2 ^ bits - 1)))

def utf8Bytes (cpt : Nat) : Bytes :=
  if cpt ≤ 0x7f then [UInt8.ofNat cpt]
  else if cpt ≤ 0x7ff then [markedByte 0xc0 (cpt >>> 6) 5, markedByte 0x80 cpt 6]
  else if cpt ≤ 0xffff then
    [markedByte 0xe0 (cpt >>> 12) 4, markedByte 0x80 (cpt >>> 6) 6, markedByte 0x80 cpt 6]
  else [markedByte 0xf0 (cpt >>> 18) 3, markedByte 0x80 (cpt >>> 12) 6,
    markedByte 0x80 (cpt >>> 6) 6, markedByte 0x80 cpt 6]

def unicodeCptToUtf8 (cpt : Nat) : Except String Bytes :=
  if cpt ≤ 0x10ffff then .ok (utf8Bytes cpt) else .error "invalid codepoint"

def lowBits (byte : UInt8) (bits : Nat) : Nat := byte.toNat &&& (2 ^ bits - 1)

/-- `unicode_cpt_from_utf8`: the code point and what follows it. -/
def unicodeCptFromUtf8 : Bytes → Except String (Nat × Bytes)
  | [] => .error "invalid character"
  | first :: rest =>
    if first &&& 0x80 = 0 then .ok (first.toNat, rest)
    else if first &&& 0x40 = 0 then .error "invalid character"
    else if first &&& 0x20 = 0 then
      match rest with
      | second :: rest =>
        if isContinuation second then .ok (lowBits first 5 <<< 6 ||| lowBits second 6, rest)
        else .error "invalid character"
      | _ => .error "invalid character"
    else if first &&& 0x10 = 0 then
      match rest with
      | second :: third :: rest =>
        if isContinuation second ∧ isContinuation third then
          .ok (lowBits first 4 <<< 12 ||| lowBits second 6 <<< 6 ||| lowBits third 6, rest)
        else .error "invalid character"
      | _ => .error "invalid character"
    else if first &&& 0x08 = 0 then
      match rest with
      | second :: third :: fourth :: rest =>
        if isContinuation second ∧ isContinuation third ∧ isContinuation fourth then
          .ok (lowBits first 3 <<< 18 ||| lowBits second 6 <<< 12 ||| lowBits third 6 <<< 6 |||
            lowBits fourth 6, rest)
        else .error "invalid character"
      | _ => .error "invalid character"
    else .error "failed to convert utf8 to codepoint"

/-- The loop of `unicode_cpts_from_utf8`; each round reads a byte at least. -/
def cptsFromUtf8Loop : Nat → Bytes → List Nat
  | 0, _ => []
  | _ + 1, [] => []
  | fuel + 1, byte :: rest =>
    match unicodeCptFromUtf8 (byte :: rest) with
    | .ok (cpt, rest) => cpt :: cptsFromUtf8Loop fuel rest
    | .error _ => 0xFFFD :: cptsFromUtf8Loop fuel rest

def unicodeCptsFromUtf8 (utf8 : Bytes) : List Nat := cptsFromUtf8Loop utf8.length utf8

def unicodeCptsToUtf8 (cps : List Nat) : Except String Bytes :=
  cps.foldlM (fun result cpt => unicodeCptToUtf8 cpt >>= fun utf8 => .ok (result ++ utf8)) []

def isPrintable (ch : Nat) : Bool :=
  (0x21 ≤ ch && ch ≤ 0x7E) || (0xA1 ≤ ch && ch ≤ 0xAC) || (0xAE ≤ ch && ch ≤ 0xFF)

/-- The loops of `unicode_byte_to_utf8_map` and of `unicode_utf8_to_byte_map`: every byte with the
code point of its character. -/
def byteCodePoints : List (Nat × Nat) :=
  (((List.range 256).filter isPrintable).map fun ch => (ch, ch)) ++
    ((List.range 256).filter fun ch => !isPrintable ch).zipIdx 256

def byteCodePoint (byte : UInt8) : Nat :=
  ((byteCodePoints.find? fun entry => entry.1 == byte.toNat).map Prod.snd).getD 0

def unicodeByteToUtf8 (byte : UInt8) : Bytes := utf8Bytes (byteCodePoint byte)

/-- `unicode_utf8_to_byte`; a text that is not in the map is out of range. -/
def unicodeUtf8ToByte (utf8 : Bytes) : Option UInt8 :=
  (byteCodePoints.find? fun entry => utf8Bytes entry.2 == utf8).map fun entry =>
    UInt8.ofNat entry.1

def encodeBytes (bytes : Bytes) : Bytes := bytes.flatMap unicodeByteToUtf8

def unicodeByteEncodingProcess (bpeWords : List Bytes) : Except String (List Bytes) :=
  bpeWords.mapM fun word =>
    unicodeCptsToUtf8 (unicodeCptsFromUtf8 word) >>= fun textUtf => .ok (encodeBytes textUtf)

def hexDigit (n : Nat) : UInt8 := UInt8.ofNat (if n < 10 then 48 + n else 87 + n)

/-- The byte under `%02x`. -/
def hexByte (byte : UInt8) : Bytes := [hexDigit (byte.toNat / 16), hexDigit (byte.toNat % 16)]

/-- What `llama_decode_text` adds for one code point. -/
def decodeCpt (text : Bytes) (cpt : Nat) : Except String Bytes :=
  unicodeCptToUtf8 cpt >>= fun utf8 =>
    match unicodeUtf8ToByte utf8 with
    | some byte => .ok [byte]
    | none => .ok ("[UNK_BYTE_0x".toUTF8.toList ++ utf8.flatMap hexByte ++ text ++ "]".toUTF8.toList)

def llamaDecodeText (text : Bytes) : Except String Bytes :=
  (unicodeCptsFromUtf8 text).foldlM (fun decoded cpt =>
    decodeCpt text cpt >>= fun more => .ok (decoded ++ more)) []

def IsScalar (cpt : Nat) : Prop := cpt ≤ 0x10ffff ∧ ¬ (0xd800 ≤ cpt ∧ cpt ≤ 0xdfff)

def ValidUtf8 (text : Bytes) : Prop :=
  ∃ cpts : List Nat, (∀ cpt ∈ cpts, IsScalar cpt) ∧ text = cpts.flatMap utf8Bytes

variable {bits : Nat} {cpts : List Nat} {ch : Nat}

theorem toNat_markedByte {mark value : Nat} (marks : mark % 2 ^ bits = 0)
    (fits : mark + 2 ^ bits ≤ 256) :
    (markedByte mark value bits).toNat = mark + value % 2 ^ bits := by
  have low : value % 2 ^ bits < 2 ^ bits := Nat.mod_lt _ (Nat.two_pow_pos bits)
  have split : mark = (mark / 2 ^ bits) <<< bits := by
    rw [Nat.shiftLeft_eq]
    have whole := Nat.div_add_mod mark (2 ^ bits)
    rw [marks, Nat.mul_comm] at whole
    exact whole.symm
  have join : mark ||| value % 2 ^ bits = mark + value % 2 ^ bits := by
    conv_lhs => rw [split]
    rw [← Nat.shiftLeft_add_eq_or_of_lt low, ← split]
  rw [markedByte, Nat.and_two_pow_sub_one_eq_mod, join]
  exact Nat.mod_eq_of_lt (by omega)

theorem lowBits_eq (byte : UInt8) (bits : Nat) : lowBits byte bits = byte.toNat % 2 ^ bits := by
  rw [lowBits, Nat.and_two_pow_sub_one_eq_mod]

theorem lowBits_markedByte {mark value : Nat} (marks : mark % 2 ^ bits = 0)
    (fits : mark + 2 ^ bits ≤ 256) :
    lowBits (markedByte mark value bits) bits = value % 2 ^ bits := by
  rw [lowBits_eq, toNat_markedByte marks fits, Nat.add_mod, marks, zero_add, Nat.mod_mod,
    Nat.mod_mod]

theorem byte_marks (byte : UInt8) :
    (byte.toNat ≤ 0x7f → byte &&& 0x80 = 0) ∧
      (0xc0 ≤ byte.toNat ∧ byte.toNat < 0xe0 →
        ¬ byte &&& 0x80 = 0 ∧ ¬ byte &&& 0x40 = 0 ∧ byte &&& 0x20 = 0) ∧
      (0xe0 ≤ byte.toNat ∧ byte.toNat < 0xf0 →
        ¬ byte &&& 0x80 = 0 ∧ ¬ byte &&& 0x40 = 0 ∧ ¬ byte &&& 0x20 = 0 ∧ byte &&& 0x10 = 0) ∧
      (0xf0 ≤ byte.toNat ∧ byte.toNat < 0xf8 →
        ¬ byte &&& 0x80 = 0 ∧ ¬ byte &&& 0x40 = 0 ∧ ¬ byte &&& 0x20 = 0 ∧ ¬ byte &&& 0x10 = 0 ∧
          byte &&& 0x08 = 0) ∧
      (0x80 ≤ byte.toNat ∧ byte.toNat < 0xc0 → isContinuation byte = true) := by
  revert byte
  exact forall_byte (by decide +kernel)

theorem lead_one (byte : UInt8) (range : byte.toNat ≤ 0x7f) : byte &&& 0x80 = 0 :=
  (byte_marks byte).1 range

theorem lead_two (byte : UInt8) (range : 0xc0 ≤ byte.toNat ∧ byte.toNat < 0xe0) :
    ¬ byte &&& 0x80 = 0 ∧ ¬ byte &&& 0x40 = 0 ∧ byte &&& 0x20 = 0 :=
  (byte_marks byte).2.1 range

theorem lead_three (byte : UInt8) (range : 0xe0 ≤ byte.toNat ∧ byte.toNat < 0xf0) :
    ¬ byte &&& 0x80 = 0 ∧ ¬ byte &&& 0x40 = 0 ∧ ¬ byte &&& 0x20 = 0 ∧ byte &&& 0x10 = 0 :=
  (byte_marks byte).2.2.1 range

theorem lead_four (byte : UInt8) (range : 0xf0 ≤ byte.toNat ∧ byte.toNat < 0xf8) :
    ¬ byte &&& 0x80 = 0 ∧ ¬ byte &&& 0x40 = 0 ∧ ¬ byte &&& 0x20 = 0 ∧ ¬ byte &&& 0x10 = 0 ∧
      byte &&& 0x08 = 0 :=
  (byte_marks byte).2.2.2.1 range

theorem isContinuation_of_range (byte : UInt8) (range : 0x80 ≤ byte.toNat ∧ byte.toNat < 0xc0) :
    isContinuation byte = true :=
  (byte_marks byte).2.2.2.2 range

theorem markedByte_range (mark value bits : Nat) (marks : mark % 2 ^ bits = 0)
    (fits : mark + 2 ^ bits ≤ 256) :
    mark ≤ (markedByte mark value bits).toNat ∧
      (markedByte mark value bits).toNat < mark + 2 ^ bits := by
  rw [toNat_markedByte marks fits]
  omega

theorem isContinuation_markedByte (value : Nat) : isContinuation (markedByte 0x80 value 6) = true :=
  isContinuation_of_range _ (markedByte_range 0x80 value 6 rfl (by decide))

theorem shiftLeft_or {low : Nat} (high : Nat) (fits : low < 2 ^ bits) :
    high <<< bits ||| low = high * 2 ^ bits + low := by
  rw [← Nat.shiftLeft_add_eq_or_of_lt fits, Nat.shiftLeft_eq]

theorem unicodeCptFromUtf8_utf8Bytes {cpt : Nat} (valid : cpt ≤ 0x10ffff) (rest : Bytes) :
    unicodeCptFromUtf8 (utf8Bytes cpt ++ rest) = .ok (cpt, rest) := by
  have last : lowBits (markedByte 0x80 cpt 6) 6 = cpt % 2 ^ 6 :=
    lowBits_markedByte rfl (by decide)
  have third : lowBits (markedByte 0x80 (cpt >>> 6) 6) 6 = cpt / 2 ^ 6 % 2 ^ 6 := by
    rw [lowBits_markedByte rfl (by decide), Nat.shiftRight_eq_div_pow]
  have second : lowBits (markedByte 0x80 (cpt >>> 12) 6) 6 = cpt / 2 ^ 12 % 2 ^ 6 := by
    rw [lowBits_markedByte rfl (by decide), Nat.shiftRight_eq_div_pow]
  rw [utf8Bytes]
  split
  · have byte : (UInt8.ofNat cpt).toNat = cpt := by
      rw [UInt8.toNat_ofNat']
      omega
    have ascii : UInt8.ofNat cpt &&& 0x80 = 0 := lead_one _ (by omega)
    simp [unicodeCptFromUtf8, if_pos ascii, byte]
  split
  · obtain ⟨notOne, cont, two⟩ := lead_two _ (markedByte_range 0xc0 (cpt >>> 6) 5 rfl (by decide))
    have lead : lowBits (markedByte 0xc0 (cpt >>> 6) 5) 5 = cpt / 2 ^ 6 % 2 ^ 5 := by
      rw [lowBits_markedByte rfl (by decide), Nat.shiftRight_eq_div_pow]
    have value : lowBits (markedByte 0xc0 (cpt >>> 6) 5) 5 <<< 6 |||
        lowBits (markedByte 0x80 cpt 6) 6 = cpt := by
      rw [last, shiftLeft_or _ (Nat.mod_lt _ (by decide))]
      omega
    simp [unicodeCptFromUtf8, if_neg notOne, if_neg cont, if_pos two, isContinuation_markedByte,
      value]
  split
  · obtain ⟨notOne, cont, notTwo, three⟩ :=
      lead_three _ (markedByte_range 0xe0 (cpt >>> 12) 4 rfl (by decide))
    have lead : lowBits (markedByte 0xe0 (cpt >>> 12) 4) 4 = cpt / 2 ^ 12 % 2 ^ 4 := by
      rw [lowBits_markedByte rfl (by decide), Nat.shiftRight_eq_div_pow]
    have value : lowBits (markedByte 0xe0 (cpt >>> 12) 4) 4 <<< 12 |||
        lowBits (markedByte 0x80 (cpt >>> 6) 6) 6 <<< 6 |||
        lowBits (markedByte 0x80 cpt 6) 6 = cpt := by
      rw [last, Nat.or_assoc, shiftLeft_or _ (Nat.mod_lt _ (by decide)),
        shiftLeft_or _ (by omega)]
      omega
    simp [unicodeCptFromUtf8, if_neg notOne, if_neg cont, if_neg notTwo, if_pos three,
      isContinuation_markedByte, value]
  · obtain ⟨notOne, cont, notTwo, notThree, four⟩ :=
      lead_four _ (markedByte_range 0xf0 (cpt >>> 18) 3 rfl (by decide))
    have lead : lowBits (markedByte 0xf0 (cpt >>> 18) 3) 3 = cpt / 2 ^ 18 % 2 ^ 3 := by
      rw [lowBits_markedByte rfl (by decide), Nat.shiftRight_eq_div_pow]
    have value : lowBits (markedByte 0xf0 (cpt >>> 18) 3) 3 <<< 18 |||
        lowBits (markedByte 0x80 (cpt >>> 12) 6) 6 <<< 12 |||
        lowBits (markedByte 0x80 (cpt >>> 6) 6) 6 <<< 6 |||
        lowBits (markedByte 0x80 cpt 6) 6 = cpt := by
      rw [last, second, Nat.or_assoc, Nat.or_assoc,
        shiftLeft_or _ (Nat.mod_lt _ (by decide)), shiftLeft_or (cpt / 2 ^ 12 % 2 ^ 6) (by omega),
        shiftLeft_or _ (by omega)]
      omega
    simp [unicodeCptFromUtf8, if_neg notOne, if_neg cont, if_neg notTwo, if_neg notThree,
      if_pos four, isContinuation_markedByte, value]

theorem utf8Bytes_ne_nil (cpt : Nat) : utf8Bytes cpt ≠ [] := by
  rw [utf8Bytes]
  split_ifs <;> simp

theorem length_le_flatMap_utf8Bytes (cpts : List Nat) :
    cpts.length ≤ (cpts.flatMap utf8Bytes).length := by
  induction cpts with
  | nil => exact le_refl 0
  | cons cpt rest ih =>
    have some_ := length_pos_iff.mpr (utf8Bytes_ne_nil cpt)
    rw [flatMap_cons, length_append, length_cons]
    omega

section

variable (valid : ∀ cpt ∈ cpts, cpt ≤ 0x10ffff)
include valid

theorem cptsFromUtf8Loop_flatMap {fuel : Nat}
    (enough : cpts.length ≤ fuel) : cptsFromUtf8Loop fuel (cpts.flatMap utf8Bytes) = cpts := by
  induction cpts generalizing fuel with
  | nil => cases fuel <;> rfl
  | cons cpt rest ih =>
    cases fuel with
    | zero => contradiction
    | succ fuel =>
      have read := unicodeCptFromUtf8_utf8Bytes (valid cpt mem_cons_self)
        (rest.flatMap utf8Bytes)
      have next := ih (fun other member => valid other (mem_cons_of_mem _ member))
        (Nat.le_of_succ_le_succ enough)
      rw [flatMap_cons]
      obtain ⟨byte, tail, split⟩ := exists_cons_of_ne_nil (utf8Bytes_ne_nil cpt)
      rw [split, cons_append] at read ⊢
      rw [cptsFromUtf8Loop, read]
      exact congrArg (cpt :: ·) next

theorem unicodeCptsFromUtf8_flatMap :
    unicodeCptsFromUtf8 (cpts.flatMap utf8Bytes) = cpts :=
  cptsFromUtf8Loop_flatMap valid (length_le_flatMap_utf8Bytes cpts)

theorem unicodeCptsToUtf8_eq :
    unicodeCptsToUtf8 cpts = .ok (cpts.flatMap utf8Bytes) := by
  have from_ (before : Bytes) :
      cpts.foldlM (fun result cpt => unicodeCptToUtf8 cpt >>= fun utf8 => .ok (result ++ utf8))
        before = .ok (before ++ cpts.flatMap utf8Bytes) := by
    induction cpts generalizing before with
    | nil => rw [flatMap_nil, append_nil]; rfl
    | cons cpt rest ih =>
      rw [foldlM_cons, unicodeCptToUtf8, if_pos (valid cpt mem_cons_self), ok_bind,
        ok_bind, ih fun other member => valid other (mem_cons_of_mem _ member),
        append_assoc, ← flatMap_cons]
  exact from_ []

end

def encodedCpt (ch : Nat) : Nat :=
  if isPrintable ch then ch else if ch ≤ 0x20 then 256 + ch else if ch ≤ 0xA0 then 162 + ch else 323

def mapOrder : List Nat :=
  List.range' 0x21 94 ++ List.range' 0xA1 12 ++ List.range' 0xAE 82 ++
    (List.range' 0 33 ++ List.range' 0x7F 34 ++ [0xAD])

theorem byteCodePoints_eq : byteCodePoints = mapOrder.map fun ch => (ch, encodedCpt ch) := by
  decide +kernel

theorem mem_mapOrder (isByte : ch < 256) : ch ∈ mapOrder := by
  simp only [mapOrder, mem_append, mem_range'_1, mem_singleton]
  omega

theorem encodedCpt_injective {other : Nat} (isByte : ch < 256) (otherByte : other < 256)
    (same : encodedCpt ch = encodedCpt other) : ch = other := by
  simp only [encodedCpt, isPrintable, Bool.or_eq_true, Bool.and_eq_true, decide_eq_true_eq] at same
  split_ifs at same <;> omega

theorem lt_of_mem_mapOrder (member : ch ∈ mapOrder) : ch < 256 := by
  simp only [mapOrder, mem_append, mem_range'_1, mem_singleton] at member
  omega

theorem find?_eq_of_unique {α : Type*} {items : List α} {item : α} {test : α → Bool}
    (member : item ∈ items) (passes : test item = true)
    (only : ∀ other ∈ items, test other = true → other = item) : items.find? test = some item := by
  cases found : items.find? test with
  | none => simp [List.find?_eq_none.mp found item member] at passes
  | some other => rw [only other (mem_of_find?_eq_some found) (List.find?_some found)]

theorem byteCodePoint_eq (byte : UInt8) : byteCodePoint byte = encodedCpt byte.toNat := by
  have found : mapOrder.find? (fun ch => ch == byte.toNat) = some byte.toNat :=
    find?_eq_of_unique (mem_mapOrder byte.toNat_lt) (by simp) (by simp)
  rw [byteCodePoint, byteCodePoints_eq, List.find?_map]
  change ((mapOrder.find? fun ch => ch == byte.toNat).map _ |>.map _).getD 0 = _
  rw [found]
  rfl

theorem byteCodePoint_le (byte : UInt8) : byteCodePoint byte ≤ 0x10ffff := by
  have isByte := byte.toNat_lt
  rw [byteCodePoint_eq, encodedCpt]
  split_ifs <;> omega

theorem utf8Bytes_injective {cpt other : Nat} (valid : cpt ≤ 0x10ffff) (otherValid : other ≤ 0x10ffff)
    (same : utf8Bytes cpt = utf8Bytes other) : cpt = other := by
  have read := unicodeCptFromUtf8_utf8Bytes valid []
  rw [same, unicodeCptFromUtf8_utf8Bytes otherValid, Except.ok.injEq, Prod.mk.injEq] at read
  exact read.1.symm

theorem unicodeUtf8ToByte_unicodeByteToUtf8 (byte : UInt8) :
    unicodeUtf8ToByte (unicodeByteToUtf8 byte) = some byte := by
  have valid {ch : Nat} (isByte : ch < 256) : encodedCpt ch ≤ 0x10ffff := by
    rw [encodedCpt]
    split_ifs <;> omega
  have found : mapOrder.find? (fun ch => utf8Bytes (encodedCpt ch) == unicodeByteToUtf8 byte) =
      some byte.toNat := by
    rw [unicodeByteToUtf8, byteCodePoint_eq]
    refine find?_eq_of_unique (mem_mapOrder byte.toNat_lt) (by simp) ?_
    intro ch member same
    have isByte := lt_of_mem_mapOrder member
    exact encodedCpt_injective isByte byte.toNat_lt
      (utf8Bytes_injective (valid isByte) (valid byte.toNat_lt) (by simpa using same))
  rw [unicodeUtf8ToByte, byteCodePoints_eq, List.find?_map]
  change ((mapOrder.find? fun ch => utf8Bytes (encodedCpt ch) == unicodeByteToUtf8 byte).map _
    |>.map _) = _
  rw [found]
  simp

theorem unicodeByteToUtf8_spec (byte : UInt8) :
    unicodeLenUtf8 ((unicodeByteToUtf8 byte).headD 0) = (unicodeByteToUtf8 byte).length ∧
      0x20 ∉ unicodeByteToUtf8 byte := by
  revert byte
  exact forall_byte (by decide +kernel)

theorem unicodeLenUtf8_spec (byte : UInt8) :
    0 < unicodeLenUtf8 byte ∧
      (byte.toNat ≤ 0x7f → unicodeLenUtf8 byte = 1) ∧
        (0xc0 ≤ byte.toNat ∧ byte.toNat < 0xe0 → unicodeLenUtf8 byte = 2) ∧
          (0xe0 ≤ byte.toNat ∧ byte.toNat < 0xf0 → unicodeLenUtf8 byte = 3) ∧
            (0xf0 ≤ byte.toNat ∧ byte.toNat < 0xf8 → unicodeLenUtf8 byte = 4) := by
  revert byte
  exact forall_byte (by decide +kernel)

theorem unicodeLenUtf8_unicodeByteToUtf8 (byte : UInt8) :
    unicodeLenUtf8 ((unicodeByteToUtf8 byte).headD 0) = (unicodeByteToUtf8 byte).length :=
  (unicodeByteToUtf8_spec byte).1

theorem unicodeLenUtf8_pos (byte : UInt8) : 0 < unicodeLenUtf8 byte := (unicodeLenUtf8_spec byte).1

theorem unicodeLenUtf8_utf8Bytes (cpt : Nat) :
    unicodeLenUtf8 ((utf8Bytes cpt).headD 0) = (utf8Bytes cpt).length := by
  rw [utf8Bytes]
  split
  · refine (unicodeLenUtf8_spec _).2.1 ?_
    change (UInt8.ofNat cpt).toNat ≤ 0x7f
    rw [UInt8.toNat_ofNat']
    omega
  split
  · exact (unicodeLenUtf8_spec _).2.2.1 (markedByte_range 0xc0 (cpt >>> 6) 5 rfl (by decide))
  split
  · exact (unicodeLenUtf8_spec _).2.2.2.1 (markedByte_range 0xe0 (cpt >>> 12) 4 rfl (by decide))
  · exact (unicodeLenUtf8_spec _).2.2.2.2 (markedByte_range 0xf0 (cpt >>> 18) 3 rfl (by decide))

theorem space_not_mem_unicodeByteToUtf8 (byte : UInt8) : 0x20 ∉ unicodeByteToUtf8 byte :=
  (unicodeByteToUtf8_spec byte).2

theorem unicodeByteToUtf8_ne_nil (byte : UInt8) : unicodeByteToUtf8 byte ≠ [] :=
  utf8Bytes_ne_nil _

theorem encodeBytes_append (bytes more : Bytes) :
    encodeBytes (bytes ++ more) = encodeBytes bytes ++ encodeBytes more := flatMap_append

theorem encodeBytes_eq (bytes : Bytes) :
    encodeBytes bytes = (bytes.map byteCodePoint).flatMap utf8Bytes := by
  rw [flatMap_map]
  rfl

theorem encodeBytes_eq_nil {bytes : Bytes} : encodeBytes bytes = [] ↔ bytes = [] := by
  cases bytes with
  | nil => simp [encodeBytes]
  | cons byte rest => simp [encodeBytes, unicodeByteToUtf8_ne_nil]

theorem space_not_mem_encodeBytes (bytes : Bytes) : 0x20 ∉ encodeBytes bytes := by
  intro member
  obtain ⟨byte, -, here⟩ := mem_flatMap.mp member
  exact space_not_mem_unicodeByteToUtf8 byte here

theorem decodeCpt_byteCodePoint (text : Bytes) (byte : UInt8) :
    decodeCpt text (byteCodePoint byte) = .ok [byte] := by
  have found := unicodeUtf8ToByte_unicodeByteToUtf8 byte
  rw [unicodeByteToUtf8] at found
  rw [decodeCpt, unicodeCptToUtf8, if_pos (byteCodePoint_le byte), ok_bind, found]

theorem llamaDecodeText_encodeBytes (bytes : Bytes) :
    llamaDecodeText (encodeBytes bytes) = .ok bytes := by
  have valid : ∀ cpt ∈ bytes.map byteCodePoint, cpt ≤ 0x10ffff := by
    intro cpt member
    obtain ⟨byte, -, same⟩ := mem_map.mp member
    rw [← same]
    exact byteCodePoint_le byte
  have from_ (text before : Bytes) : (bytes.map byteCodePoint).foldlM (fun decoded cpt =>
      decodeCpt text cpt >>= fun more => .ok (decoded ++ more)) before = .ok (before ++ bytes) := by
    clear valid
    induction bytes generalizing before with
    | nil => rw [append_nil]; rfl
    | cons byte rest ih =>
      rw [map_cons, foldlM_cons, decodeCpt_byteCodePoint, ok_bind, ok_bind, ih,
        append_assoc, singleton_append]
  have read : unicodeCptsFromUtf8 (encodeBytes bytes) = bytes.map byteCodePoint := by
    rw [encodeBytes_eq, unicodeCptsFromUtf8_flatMap valid]
  rw [llamaDecodeText, read]
  exact from_ _ []

theorem unicodeByteEncodingProcess_eq {words : List (List Nat)}
    (valid : ∀ word ∈ words, ∀ cpt ∈ word, cpt ≤ 0x10ffff) :
    unicodeByteEncodingProcess (words.map (List.flatMap utf8Bytes)) =
      .ok (words.map fun word => encodeBytes (word.flatMap utf8Bytes)) := by
  rw [unicodeByteEncodingProcess, @mapM_ok _ _ _ _ encodeBytes, map_map]
  · rfl
  · intro word member
    obtain ⟨cpts, here, same⟩ := mem_map.mp member
    rw [← same, unicodeCptsFromUtf8_flatMap (valid cpts here),
      unicodeCptsToUtf8_eq (valid cpts here), ok_bind]

end LlamaCpp.Vocab
