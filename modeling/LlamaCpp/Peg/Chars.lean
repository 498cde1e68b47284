import LlamaCpp.Peg.Scan

/-!
# Texts of characters

The scanners read UTF-8 text character by character, and decode what its encoding wrote.
-/

set_option autoImplicit false

namespace LlamaCpp.Peg

open LlamaCpp.Lib List

def encode (text : List Char) : List Byte := text.flatMap String.utf8EncodeChar

variable {front more : List Byte} {text rest word : List Char} {c : Char}

@[simp] theorem encode_nil : encode [] = [] := rfl

@[simp] theorem encode_cons : encode (c :: text) = String.utf8EncodeChar c ++ encode text :=
  flatMap_cons

@[simp] theorem encode_append : encode (text ++ rest) = encode text ++ encode rest :=
  flatMap_append

theorem toList_loop (bytes : ByteArray) (i : Nat) (r : List Byte) :
    ByteArray.toList.loop bytes i r = r.reverse ++ bytes.data.toList.drop i := by
  fun_induction ByteArray.toList.loop bytes i r with
  | case1 i r inside ih =>
    have here : i < bytes.data.toList.length := inside
    rw [ih, drop_eq_getElem_cons here]
    simp [ByteArray.get!, inside]
  | case2 i r beyond =>
    rw [drop_of_length_le (not_lt.mp beyond), append_nil]

theorem bytesOf_eq (text : String) : bytesOf text = encode text.toList := by
  have loop := toList_loop text.toByteArray 0 []
  rw [bytesOf, String.toUTF8_eq_toByteArray, ByteArray.toList, loop, ← String.utf8Encode_toList,
    List.utf8Encode, toList_data_toByteArray]
  rfl

/-- The bits of the bytes that `String.utf8EncodeChar` writes. -/
theorem continuation_bits (v : Nat) : isContinuation (UInt8.ofNat (v % 64 + 0x80)) = true ∧
    lowBits (UInt8.ofNat (v % 64 + 0x80)) 6 = v % 64 := by
  have all : ∀ n : Fin 64, isContinuation (UInt8.ofNat (n.val + 0x80)) = true ∧
      lowBits (UInt8.ofNat (n.val + 0x80)) 6 = n := by decide
  exact all ⟨v % 64, Nat.mod_lt _ (by omega)⟩

theorem lead_bits : (∀ n : Fin 128, UInt8.ofNat n &&& 0x80 = 0) ∧
    (∀ n : Fin 32, let b := UInt8.ofNat (n.val + 0xc0)
      b &&& 0x80 ≠ 0 ∧ b &&& 0x40 ≠ 0 ∧ b &&& 0x20 = 0 ∧ lowBits b 5 = n) ∧
    (∀ n : Fin 16, let b := UInt8.ofNat (n.val + 0xe0)
      b &&& 0x80 ≠ 0 ∧ b &&& 0x40 ≠ 0 ∧ b &&& 0x20 ≠ 0 ∧ b &&& 0x10 = 0 ∧ lowBits b 4 = n) ∧
    ∀ n : Fin 8, let b := UInt8.ofNat (n.val + 0xf0)
      b &&& 0x80 ≠ 0 ∧ b &&& 0x40 ≠ 0 ∧ b &&& 0x20 ≠ 0 ∧ b &&& 0x10 ≠ 0 ∧ b &&& 0x08 = 0 ∧
        lowBits b 3 = n := by
  decide

theorem firstCodepoint_encode (c : Char) (more : List Byte) :
    firstCodepoint (String.utf8EncodeChar c ++ more) = .success c.toNat c.utf8Size := by
  obtain ⟨one, two, three, four⟩ := lead_bits
  have size := String.length_utf8EncodeChar c
  have bits := continuation_bits
  have small : c.val.toNat < 0x110000 := by
    have := c.valid
    rcases this with low | high
    · exact low.trans (by omega)
    · exact high.2
  rw [← size, show c.toNat = c.val.toNat from rfl]
  unfold String.utf8EncodeChar
  generalize c.val.toNat = v at *
  dsimp only
  split_ifs with ascii short mid
  · have lead := one ⟨v, by omega⟩
    have value : (UInt8.ofNat v).toNat = v := by
      rw [UInt8.toNat_ofNat']
      omega
    simp [firstCodepoint, lead, value]
  · obtain ⟨a, b, c, low⟩ := two ⟨v / 64 % 32, by omega⟩
    simp only [cons_append, firstCodepoint, if_neg a, if_neg b, if_pos c, low,
      bits, Bool.not_true, Bool.false_eq_true, if_false]
    congr 1
    omega
  · obtain ⟨a, b, c, d, low⟩ := three ⟨v / 4096 % 16, by omega⟩
    simp only [cons_append, firstCodepoint, if_neg a, if_neg b, if_neg c,
      if_pos d, low, bits, Bool.not_true, Bool.false_eq_true, if_false, Bool.or_false]
    congr 1
    omega
  · obtain ⟨a, b, c, d, e, low⟩ := four ⟨v / 262144 % 8, by omega⟩
    simp only [cons_append, firstCodepoint, if_neg a, if_neg b, if_neg c,
      if_neg d, if_pos e, low, bits, Bool.not_true, Bool.false_eq_true, if_false, Bool.or_false]
    congr 1
    omega

theorem tail_continues (c : Char) :
    ∀ b ∈ (String.utf8EncodeChar c).tail, isContinuation b = true := by
  have bits := continuation_bits
  unfold String.utf8EncodeChar
  dsimp only
  split_ifs <;> simp [bits, -UInt8.ofNat_add]

theorem firstCodepoint_continuation {b : Byte} (continues : isContinuation b = true) :
    firstCodepoint (b :: more) = .invalid := by
  have both := forall_byte (P := fun b => isContinuation b = true → b &&& 0x80 ≠ 0 ∧ b &&& 0x40 = 0)
    (by decide +kernel) b continues
  simp [firstCodepoint, if_neg both.1, if_pos both.2]

theorem parseUtf8Codepoint_encode (front : List Byte) :
    parseUtf8Codepoint (front ++ encode (c :: text)) front.length = .success c.toNat c.utf8Size := by
  rw [parseUtf8Codepoint, drop_left]
  exact firstCodepoint_encode c _

theorem encode_isPrefix : encode word <+: encode text ↔ word <+: text := by
  refine ⟨fun isPrefix => ?_, fun ⟨rest, same⟩ => ⟨encode rest, by rw [← same, encode_append]⟩⟩
  induction word generalizing text with
  | nil => exact nil_prefix
  | cons a word ih =>
    obtain ⟨more, same⟩ := isPrefix
    have decoded : firstCodepoint (encode text) = .success a.toNat a.utf8Size := by
      rw [← same, encode_cons, append_assoc]
      exact firstCodepoint_encode a _
    cases text with
    | nil => cases decoded
    | cons b text =>
      rw [encode_cons, firstCodepoint_encode] at decoded
      have equal : b = a := by
        injection decoded with value
        exact Char.toNat_inj.mp value
      subst equal
      rw [encode_cons, encode_cons, append_assoc, append_cancel_left_eq] at same
      exact prefix_cons_inj b |>.mpr (ih ⟨more, same⟩)

theorem drop_inside {k : Nat} (positive : 0 < k) (short : k < c.utf8Size) :
    ∃ b more, (encode (c :: text)).drop k = b :: more ∧ isContinuation b = true := by
  have length := String.length_utf8EncodeChar c
  obtain ⟨k, rfl⟩ := Nat.exists_eq_succ_of_ne_zero positive.ne'
  rw [encode_cons, drop_append_of_le_length (by omega), ← drop_tail]
  cases suffix : (String.utf8EncodeChar c).tail.drop k with
  | nil =>
    have tooShort := congrArg List.length suffix
    simp at tooShort
    omega
  | cons b rest =>
    refine ⟨b, rest ++ encode text, rfl, tail_continues c b ?_⟩
    exact mem_of_mem_drop (suffix ▸ mem_cons_self)

theorem boundary_or_inside {start : Nat} (inside : start ≤ (encode text).length) :
    (∃ front back, text = front ++ back ∧ start = (encode front).length) ∨
      ∃ b more, (encode text).drop start = b :: more ∧ isContinuation b = true := by
  induction text generalizing start with
  | nil => exact Or.inl ⟨[], [], rfl, by simpa using inside⟩
  | cons c text ih =>
    have length := String.length_utf8EncodeChar c
    rw [encode_cons, length_append] at inside
    by_cases later : c.utf8Size ≤ start
    · have earlier : start - c.utf8Size ≤ (encode text).length := by omega
      rcases ih earlier with
        ⟨front, back, same, here⟩ | ⟨b, more, same, continues⟩
      · refine Or.inl ⟨c :: front, back, by rw [same, cons_append], ?_⟩
        rw [encode_cons, length_append]
        omega
      · refine Or.inr ⟨b, more, ?_, continues⟩
        rw [encode_cons, drop_append, drop_of_length_le (by omega), length]
        exact same
    · by_cases atStart : start = 0
      · exact Or.inl ⟨[], c :: text, rfl, atStart⟩
      · exact Or.inr (drop_inside (pos_of_ne_zero atStart) (not_le.mp later))

end LlamaCpp.Peg
