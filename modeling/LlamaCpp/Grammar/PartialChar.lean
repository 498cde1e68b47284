import LlamaCpp.Grammar.PieceCuts
import LlamaCpp.Vocab.Unicode
import Mathlib.Tactic.NormNum

/-!
# A character of which the first bytes are there

The bytes of a character that have come leave an interval of values.
`llama_grammar_match_partial_char` compares the items of a class with the interval: a class
lets the bytes pass when an item meets it, a negated class when no item does.
-/

set_option autoImplicit false

namespace LlamaCpp.Grammar

open LlamaCpp.Lib List Option
open LlamaCpp.Vocab (markedByte toNat_markedByte IsScalar)

def utf8Length (cpt : Nat) : Nat :=
  if cpt ≤ 0x7f then 1 else if cpt ≤ 0x7ff then 2 else if cpt ≤ 0xffff then 3 else 4

theorem lookup_of_range (lead : Byte) :
    (lead.toNat ≤ 0x7F → lookup.getD (lead >>> 4).toNat 0 = 1) ∧
      (0xC0 ≤ lead.toNat ∧ lead.toNat < 0xE0 → lookup.getD (lead >>> 4).toNat 0 = 2) ∧
      (0xE0 ≤ lead.toNat ∧ lead.toNat < 0xF0 → lookup.getD (lead >>> 4).toNat 0 = 3) ∧
      (0xF0 ≤ lead.toNat → lookup.getD (lead >>> 4).toNat 0 = 4) := by
  revert lead
  exact forall_byte (by decide +kernel)

/-- A lead byte that announces `n` more bytes leaves its low bits. -/
theorem decodeSequences_lead {lead : Byte} {n : Nat}
    (read : lookup.getD (lead >>> 4).toNat 0 = (n : Int) + 2) :
    decodeSequences [lead] 0 0 = some ([], lead.toNat % 2 ^ (6 - n), (n : Int) + 1) := by
  have bits : (7 - ((n : Int) + 1)).toNat = 6 - n := by omega
  have missing : (n : Int) + 2 - 1 = (n : Int) + 1 := by omega
  have begun : ¬ (n : Int) + 1 < 0 := by omega
  have open_ : ¬ (n : Int) + 1 = 0 := by omega
  rw [decodeSequences, if_neg (by decide)]
  simp only [read, missing, if_neg begun, if_neg open_, bits, decodeSequences, map_some,
    Nat.one_shiftLeft, Nat.and_two_pow_sub_one_eq_mod]

theorem appendBits_markedByte (value x : Nat) :
    appendBits value (markedByte 0x80 x 6) = value * 64 + x % 64 := by
  have byte : (markedByte 0x80 x 6).toNat = 0x80 + x % 2 ^ 6 :=
    toNat_markedByte (by decide) (by decide)
  rw [appendBits, UInt8.toNat_and]
  rw [show (0x3F : UInt8).toNat = 2 ^ 6 - 1 from rfl, Nat.and_two_pow_sub_one_eq_mod]
  omega

theorem decodeSequences_more {value x : Nat} {n : Nat} (front : List Byte) {codePoints : List Nat}
    (decoded : decodeSequences front 0 0 = some (codePoints, value, (n : Int) + 1)) :
    ∃ codePoints', decodeSequences (front ++ [markedByte 0x80 x 6]) 0 0 =
      some (codePoints', value * 64 + x % 64, (n : Int)) := by
  have begun : (0 : Int) < (n : Int) + 1 := by omega
  have missing : (n : Int) + 1 - 1 = (n : Int) := by omega
  rw [decodeSequences_append, decoded, bind_some, joinDecoded]
  simp only [decodeSequences, if_pos begun, missing, appendBits_markedByte]
  exact ⟨_, rfl⟩

variable {cpt k : Nat} {rules : Rules} {pos : Pos} {c : CharClass}

theorem utf8Length_cases (bounded : cpt ≤ 0x10ffff) :
    (utf8Length cpt = 1 ∧ cpt ≤ 0x7f) ∨ (utf8Length cpt = 2 ∧ 0x80 ≤ cpt ∧ cpt ≤ 0x7ff) ∨
      (utf8Length cpt = 3 ∧ 0x800 ≤ cpt ∧ cpt ≤ 0xffff) ∨
      (utf8Length cpt = 4 ∧ 0x10000 ≤ cpt ∧ cpt ≤ 0x10ffff) := by
  unfold utf8Length
  split_ifs <;> omega

theorem utf8Length_iff (bounded : cpt ≤ 0x10ffff) :
    (utf8Length cpt = 2 ↔ 0x80 ≤ cpt ∧ cpt ≤ 0x7ff) ∧
      (utf8Length cpt = 3 ↔ 0x800 ≤ cpt ∧ cpt ≤ 0xffff) ∧
      (utf8Length cpt = 4 ↔ 0x10000 ≤ cpt ∧ cpt ≤ 0x10ffff) := by
  have lengths := utf8Length_cases bounded
  omega

def utf8Form (length cpt : Nat) : List Byte :=
  match length with
  | 1 => [UInt8.ofNat cpt]
  | 2 => [markedByte 0xc0 (cpt >>> 6) 5, markedByte 0x80 cpt 6]
  | 3 => [markedByte 0xe0 (cpt >>> 12) 4, markedByte 0x80 (cpt >>> 6) 6, markedByte 0x80 cpt 6]
  | _ => [markedByte 0xf0 (cpt >>> 18) 3, markedByte 0x80 (cpt >>> 12) 6,
      markedByte 0x80 (cpt >>> 6) 6, markedByte 0x80 cpt 6]

theorem utf8Bytes_form (cpt : Nat) : Vocab.utf8Bytes cpt = utf8Form (utf8Length cpt) cpt := by
  unfold Vocab.utf8Bytes utf8Length
  split_ifs <;> rfl

theorem length_utf8Bytes (bounded : cpt ≤ 0x10ffff) :
    (Vocab.utf8Bytes cpt).length = utf8Length cpt := by
  rw [utf8Bytes_form]
  rcases utf8Length_cases bounded with ⟨length, _⟩ | ⟨length, _⟩ | ⟨length, _⟩ | ⟨length, _⟩ <;>
    rw [length] <;> rfl

theorem lookup_utf8Bytes (bounded : cpt ≤ 0x10ffff) :
    lookup.getD ((Vocab.utf8Bytes cpt).headD 0 >>> 4).toNat 0 = (utf8Length cpt : Int) := by
  rw [utf8Bytes_form]
  rcases utf8Length_cases bounded with ⟨length, low⟩ | ⟨length, _⟩ | ⟨length, _⟩ | ⟨length, _⟩
  · rw [length, utf8Form, headD_cons]
    refine (lookup_of_range _).1 ?_
    rw [UInt8.toNat_ofNat']
    omega
  · rw [length, utf8Form, headD_cons]
    refine (lookup_of_range _).2.1 ?_
    rw [toNat_markedByte (by decide) (by decide)]
    omega
  · rw [length, utf8Form, headD_cons]
    refine (lookup_of_range _).2.2.1 ?_
    rw [toNat_markedByte (by decide) (by decide)]
    omega
  · rw [length, utf8Form, headD_cons]
    · refine (lookup_of_range _).2.2.2 ?_
      rw [toNat_markedByte (by decide) (by decide)]
      omega
    all_goals decide

theorem shiftRight_more (cpt n : Nat) :
    (cpt >>> (6 * (n + 1))) * 64 + (cpt >>> (6 * n)) % 64 = cpt >>> (6 * n) := by
  have split : cpt >>> (6 * (n + 1)) = (cpt >>> (6 * n)) / 64 := by
    rw [Nat.mul_succ, Nat.shiftRight_add, Nat.shiftRight_eq_div_pow _ 6]
  omega

theorem decodeSequences_take (bounded : cpt ≤ 0x10ffff) (begun : 0 < k)
    (inside : k < utf8Length cpt) : ∃ codePoints,
      decodeSequences ((Vocab.utf8Bytes cpt).take k) 0 0 = some (codePoints,
        cpt >>> (6 * (utf8Length cpt - k)), ((utf8Length cpt - k : Nat) : Int)) := by
  have read := lookup_utf8Bytes bounded
  rw [utf8Bytes_form] at read ⊢
  rcases utf8Length_cases bounded with ⟨length, _⟩ | ⟨length, low, high⟩ | ⟨length, low, high⟩ |
    ⟨length, low, high⟩
  · omega
  · rw [length] at read ⊢
    obtain rfl : k = 1 := by omega
    have lead : decodeSequences [markedByte 0xc0 (cpt >>> 6) 5] 0 0 = _ := decodeSequences_lead read
    rw [toNat_markedByte (by decide) (by decide)] at lead
    have bits : (0xc0 + cpt >>> 6 % 2 ^ 5) % 2 ^ (6 - 0) = cpt >>> 6 := by
      omega
    rw [bits] at lead
    exact ⟨_, lead⟩
  · rw [length] at read ⊢
    have lead : decodeSequences [markedByte 0xe0 (cpt >>> 12) 4] 0 0 = _ := decodeSequences_lead read
    rw [toNat_markedByte (by decide) (by decide)] at lead
    have bits : (0xe0 + cpt >>> 12 % 2 ^ 4) % 2 ^ (6 - 1) = cpt >>> 12 := by
      omega
    rw [bits] at lead
    rcases (show k = 1 ∨ k = 2 by omega) with rfl | rfl
    · exact ⟨_, lead⟩
    · obtain ⟨codePoints, two⟩ := decodeSequences_more _ lead
      rw [shiftRight_more cpt 1] at two
      exact ⟨_, two⟩
  · rw [length] at read ⊢
    have lead : decodeSequences [markedByte 0xf0 (cpt >>> 18) 3] 0 0 = _ := decodeSequences_lead read
    rw [toNat_markedByte (by decide) (by decide)] at lead
    have bits : (0xf0 + cpt >>> 18 % 2 ^ 3) % 2 ^ (6 - 2) = cpt >>> 18 := by
      omega
    rw [bits] at lead
    rcases (show k = 1 ∨ k = 2 ∨ k = 3 by omega) with rfl | rfl | rfl
    · exact ⟨_, lead⟩
    · obtain ⟨codePoints, two⟩ := decodeSequences_more _ lead
      rw [shiftRight_more cpt 2] at two
      exact ⟨_, two⟩
    · obtain ⟨codePoints, two⟩ := decodeSequences_more _ lead
      rw [shiftRight_more cpt 2] at two
      obtain ⟨codePoints', three⟩ := decodeSequences_more _ two
      rw [shiftRight_more cpt 1] at three
      exact ⟨_, three⟩

theorem markedByte_ne_zero {mark value bits : Nat} (marks : mark % 2 ^ bits = 0)
    (fits : mark + 2 ^ bits ≤ 256) (high : 0 < mark) : (0 : Byte) ≠ markedByte mark value bits := by
  intro same
  have byte : (markedByte mark value bits).toNat = mark + value % 2 ^ bits :=
    toNat_markedByte marks fits
  rw [← same, UInt8.toNat_zero] at byte
  omega

theorem plain_utf8Bytes (bounded : cpt ≤ 0x10ffff) (several : 1 < utf8Length cpt) :
    0 ∉ Vocab.utf8Bytes cpt := by
  rw [utf8Bytes_form]
  rcases utf8Length_cases bounded with ⟨length, _⟩ | ⟨length, _⟩ | ⟨length, _⟩ | ⟨length, _⟩
  · omega
  all_goals
    rw [length]
    simp [utf8Form, markedByte_ne_zero]

theorem decodeUtf8_take (bounded : cpt ≤ 0x10ffff) (begun : 0 < k) (inside : k < utf8Length cpt) :
    (decodeUtf8 ((Vocab.utf8Bytes cpt).take k) ⟨0, 0⟩).2 =
      ⟨cpt >>> (6 * (utf8Length cpt - k)), ((utf8Length cpt - k : Nat) : Int)⟩ := by
  have plain : 0 ∉ (Vocab.utf8Bytes cpt).take k := fun member =>
    plain_utf8Bytes bounded (by omega) (mem_of_mem_take member)
  obtain ⟨codePoints, decoded⟩ := decodeSequences_take bounded begun inside
  rw [decodeUtf8_ended (le_refl 0), cStr_self plain, decoded]

theorem headD_take (begun : 0 < k) (bytes : List Byte) :
    (bytes.take k).headD 0 = bytes.headD 0 := by
  obtain ⟨m, rfl⟩ := Nat.exists_eq_succ_of_ne_zero begun.ne'
  cases bytes <;> rfl

theorem take_isPrefix_iff {other : Nat} (bounded : cpt ≤ 0x10ffff)
    (otherBounded : other ≤ 0x10ffff) (begun : 0 < k) (inside : k < utf8Length cpt) :
    (Vocab.utf8Bytes cpt).take k <+: Vocab.utf8Bytes other ↔
      utf8Length other = utf8Length cpt ∧
        other >>> (6 * (utf8Length cpt - k)) = cpt >>> (6 * (utf8Length cpt - k)) := by
  constructor
  · intro isPrefix
    have taken : (Vocab.utf8Bytes cpt).take k = (Vocab.utf8Bytes other).take k := by
      rw [prefix_iff_eq_take.mp isPrefix, length_take, length_utf8Bytes bounded,
        min_eq_left inside.le]
    have length : utf8Length other = utf8Length cpt := by
      have lead := congrArg (fun bytes : List Byte => bytes.headD 0) taken
      simp only [headD_take begun] at lead
      have same := lookup_utf8Bytes bounded
      rw [lead, lookup_utf8Bytes otherBounded] at same
      exact Int.natCast_inj.mp same
    obtain ⟨codePoints, decoded⟩ := decodeSequences_take bounded begun inside
    obtain ⟨codePoints', decoded'⟩ := decodeSequences_take otherBounded begun (length ▸ inside)
    rw [taken, decoded', length] at decoded
    exact ⟨length, (Prod.mk.inj (Prod.mk.inj (some.inj decoded)).2).1⟩
  · rintro ⟨length, upper⟩
    have above : ∀ j, utf8Length cpt - k ≤ j → other >>> (6 * j) = cpt >>> (6 * j) := by
      intro j more
      obtain ⟨m, rfl⟩ := Nat.exists_eq_add_of_le more
      rw [Nat.mul_add, Nat.shiftRight_add, Nat.shiftRight_add, upper]
    have taken : (Vocab.utf8Bytes cpt).take k = (Vocab.utf8Bytes other).take k := by
      rw [utf8Bytes_form cpt, utf8Bytes_form other, length]
      rcases utf8Length_cases bounded with ⟨len, _⟩ | ⟨len, _⟩ | ⟨len, _⟩ | ⟨len, _⟩ <;>
        rw [len] at ⊢
      · omega
      · obtain rfl : k = 1 := by omega
        simp [utf8Form, above 1 (by omega)]
      · rcases (show k = 1 ∨ k = 2 by omega) with rfl | rfl
        · simp [utf8Form, above 2 (by omega)]
        · simp [utf8Form, above 2 (by omega), above 1 (by omega)]
      · rcases (show k = 1 ∨ k = 2 ∨ k = 3 by omega) with rfl | rfl | rfl
        · simp [utf8Form, above 3 (by omega)]
        · simp [utf8Form, above 3 (by omega), above 2 (by omega)]
        · simp [utf8Form, above 3 (by omega), above 2 (by omega), above 1 (by omega)]
    rw [taken]
    exact take_prefix k _

/-- The smallest value that the bits leave; the shorter forms of a value are not among them. -/
def PartialUtf8.lowest (state : PartialUtf8) : Nat :=
  let low := state.value <<< (state.nRemain.toNat * 6)
  if low = 0 then
    if state.nRemain = 2 then 0x800 else if state.nRemain = 3 then 0x10000 else low
  else low

def PartialUtf8.highest (state : PartialUtf8) : Nat :=
  state.value <<< (state.nRemain.toNat * 6) + 2 ^ (state.nRemain.toNat * 6) - 1

theorem shiftLeft_or_ones (value n : Nat) :
    (value <<< n) ||| (1 <<< n - 1) = value <<< n + 2 ^ n - 1 := by
  have positive := Nat.two_pow_pos n
  rw [Nat.one_shiftLeft, ← Nat.shiftLeft_add_eq_or_of_lt (Nat.sub_one_lt positive.ne')]
  exact (Nat.add_sub_assoc positive _).symm

theorem interval_iff {other : Nat} (bounded : cpt ≤ 0x10ffff) (otherBounded : other ≤ 0x10ffff)
    (begun : 0 < k) (inside : k < utf8Length cpt) :
    (Vocab.utf8Bytes cpt).take k <+: Vocab.utf8Bytes other ↔
      (decodeUtf8 ((Vocab.utf8Bytes cpt).take k) ⟨0, 0⟩).2.lowest ≤ other ∧
        other ≤ (decodeUtf8 ((Vocab.utf8Bytes cpt).take k) ⟨0, 0⟩).2.highest := by
  rw [take_isPrefix_iff bounded otherBounded begun inside, decodeUtf8_take bounded begun inside]
  simp only [PartialUtf8.lowest, PartialUtf8.highest, Int.toNat_natCast, mul_comm _ 6]
  obtain ⟨two, three, four⟩ := utf8Length_iff otherBounded
  rcases utf8Length_cases bounded with ⟨len, _⟩ | ⟨len, low, high⟩ | ⟨len, low, high⟩ |
    ⟨len, low, high⟩ <;> rw [len] at ⊢
  · omega
  · obtain rfl : k = 1 := by omega
    rw [if_neg (by omega)]
    omega
  · rcases (show k = 1 ∨ k = 2 by omega) with rfl | rfl
    · simp only [show ((3 - 1 : Nat) : Int) = 2 from rfl,
        if_true]
      split <;> omega
    · rw [if_neg (by omega)]
      omega
  · rcases (show k = 1 ∨ k = 2 ∨ k = 3 by omega) with rfl | rfl | rfl
    · simp only [show ((4 - 1 : Nat) : Int) = 3 from rfl,
        show ¬ (3 : Int) = 2 by decide, if_true, if_false]
      split <;> omega
    · rw [if_neg (by omega)]
      omega
    · rw [if_neg (by omega)]
      omega

def ItemMeets (low high : Nat) (item : Element × Option Element) : Prop :=
  match item.2 with
  | some upper => item.1.value ≤ high ∧ low ≤ upper.value
  | none => item.1.type = .charAny ∨ low ≤ item.1.value ∧ item.1.value ≤ high

theorem ItemMatches.meets {low high : Nat} {item : Element × Option Element}
    (hit : ItemMatches cpt item) (inside : low ≤ cpt ∧ cpt ≤ high) : ItemMeets low high item := by
  obtain ⟨e, upper⟩ := item
  cases upper with
  | some upper => exact ⟨hit.1.trans inside.2, inside.1.trans hit.2⟩
  | none =>
    rcases hit with any | same
    · exact Or.inl any
    · refine Or.inr ?_
      rw [show e.value = cpt from same]
      exact inside

theorem ite_meets_iff {isPositive more : Bool} {meets later : Prop} [Decidable meets]
    (rest : more = true ↔ (isPositive = true ↔ later)) :
    (if meets then isPositive else more) = true ↔ (isPositive = true ↔ meets ∨ later) := by
  by_cases hit : meets
  · simp [hit]
  · simpa [hit] using rest

theorem ite_any_iff {isPositive more : Bool} {e : Element} {low high : Nat} {later : Prop}
    (any : isPositive = false → e.type ≠ .charAny)
    (rest : more = true ↔ (isPositive = true ↔ later)) :
    (if e.type = .charAny then true
      else if low ≤ e.value ∧ e.value ≤ high then isPositive else more) = true ↔
      (isPositive = true ↔ ItemMeets low high (e, none) ∨ later) := by
  have meets : ItemMeets low high (e, none) ↔
      e.type = .charAny ∨ low ≤ e.value ∧ e.value ≤ high := Iff.rfl
  by_cases isAny : e.type = .charAny
  · have positive : isPositive = true := by
      by_contra negated
      exact any (Bool.eq_false_of_not_eq_true negated) isAny
    simp [meets, isAny, positive]
  · rw [if_neg isAny, ite_meets_iff rest, meets]
    simp [isAny]

/-- The loop over the items of a class decides whether one of them meets the interval.  A `.` can
only be the first item, and of a class that is not negated. -/
theorem partialItems_class (isPositive : Bool) (low high : Nat) (c after : List Element)
    (inOrder : itemsInOrder c = true) (stops : ∀ e ∈ after.head?, isClassTail e = false)
    (any : isPositive = false → (c.headD endElement).type ≠ .charAny) :
    partialItems isPositive low high (c ++ after) = true ↔
      (isPositive = true ↔ ∃ item ∈ classItems c, ItemMeets low high item) := by
  -- behind the last item nothing is left to meet
  have noMore : (!isPositive) = true ↔ (isPositive = true ↔ False) := by simp
  fun_induction itemsInOrder c with
  | case1 => cases inOrder
  | case2 e =>
    change isPositive = false → e.type ≠ .charAny at any
    have last : partialItems isPositive low high ([e] ++ after) =
        if e.type = .charAny then true
        else if low ≤ e.value ∧ e.value ≤ high then isPositive else !isPositive := by
      cases after with
      | nil => rfl
      | cons other after =>
        have notTail := stops other rfl
        have notRng : other.type ≠ .charRngUpper := by
          intro isRng
          simp [isClassTail, isRng] at notTail
        have notAlt : other.type ≠ .charAlt := by
          intro isAlt
          simp [isClassTail, isAlt] at notTail
        simp [partialItems, if_neg notRng, if_neg notAlt]
    rw [last, ite_any_iff any noMore]
    simp [classItems]
  | case3 e next nextRng =>
    have last : partialItems isPositive low high ([e, next] ++ after) =
        if e.value ≤ high ∧ low ≤ next.value then isPositive else !isPositive := by
      cases after with
      | nil => simp only [append_nil, partialItems, if_pos nextRng]
      | cons other after =>
        have notTail := stops other rfl
        have notAlt : other.type ≠ .charAlt := by
          intro isAlt
          simp [isClassTail, isAlt] at notTail
        simp [partialItems, if_pos nextRng, if_neg notAlt]
    rw [last, ite_meets_iff noMore]
    simp [classItems, nextRng, ItemMeets]
  | case4 e next nextRng other rest ih =>
    rw [Bool.and_eq_true, decide_eq_true_iff] at inOrder
    have more := ih inOrder.2 fun _ => by simp [inOrder.1]
    simp only [cons_append] at more ⊢
    rw [partialItems, if_pos nextRng, if_pos inOrder.1, ite_meets_iff more]
    simp [classItems, if_pos nextRng, ItemMeets]
  | case5 e next rest notRng ih =>
    rw [Bool.and_eq_true, decide_eq_true_iff] at inOrder
    change isPositive = false → e.type ≠ .charAny at any
    have more := ih inOrder.2 fun _ => by simp [inOrder.1]
    simp only [cons_append] at more ⊢
    simp only [partialItems, if_neg notRng, if_pos inOrder.1]
    rw [ite_any_iff any more]
    simp [classItems, if_neg notRng]

structure ClassAt (rules : Rules) (pos : Pos) (c : CharClass) : Prop where
  elements : ∃ after, elementsAt rules pos = c ++ after ∧
    ∀ e ∈ after.head?, isClassTail e = false
  head : isCharHead (c.headD endElement) = true
  items : itemsInOrder c = true

theorem ClassAt.first (class_ : ClassAt rules pos c) :
    elementAt rules pos = c.headD endElement := by
  obtain ⟨after, elements, -⟩ := class_.elements
  rw [elementAt, elements]
  cases c with
  | nil => exact absurd class_.items (by decide)
  | cons e rest => rfl

theorem ClassAt.any (negated : isPositiveChar (elementAt rules pos) = false)
    (class_ : ClassAt rules pos c) : (c.headD endElement).type ≠ .charAny := by
  rw [class_.first] at negated
  intro isAny
  rw [isPositiveChar, isAny] at negated
  cases negated

theorem ClassAt.matchChar_iff (class_ : ClassAt rules pos c) (cpt : Nat) :
    (matchChar rules pos cpt).1 = true ↔
      (isPositiveChar (elementAt rules pos) = true ↔ ∃ item ∈ classItems c, ItemMatches cpt item) := by
  obtain ⟨after, elements, stops⟩ := class_.elements
  rw [matchChar, elements, ← (matchItems_class cpt c after class_.items stops).1]
  simp only [beq_iff_eq, ← Bool.eq_iff_iff]
  exact eq_comm

theorem ClassAt.matchPartialChar_meets (class_ : ClassAt rules pos c) (state : PartialUtf8)
    (valid : ¬ (state.nRemain < 0 ∨ state.nRemain = 1 ∧ state.value < 2)) :
    matchPartialChar rules pos state = true ↔
      (isPositiveChar (elementAt rules pos) = true ↔
        ∃ item ∈ classItems c, ItemMeets state.lowest state.highest item) := by
  obtain ⟨after, elements, stops⟩ := class_.elements
  have same : matchPartialChar rules pos state = partialItems
      (isPositiveChar (elementAt rules pos)) state.lowest state.highest (c ++ after) := by
    simp only [matchPartialChar, if_neg valid, elements, shiftLeft_or_ones]
    rfl
  rw [same]
  exact partialItems_class _ _ _ c after class_.items stops fun negated => class_.any negated

def PartialUtf8.Leaves (state : PartialUtf8) (cpt : Nat) : Prop :=
  IsScalar cpt ∧ state.lowest ≤ cpt ∧ cpt ≤ state.highest

/-- When an item meets the interval, the items hold a scalar value of it, or all of them where the
class is negated. -/
def MeetsScalars (isPositive : Bool) (c : CharClass) (state : PartialUtf8) : Prop :=
  (∃ item ∈ classItems c, ItemMeets state.lowest state.highest item) →
    if isPositive then ∃ cpt, state.Leaves cpt ∧ ∃ item ∈ classItems c, ItemMatches cpt item
    else ∀ cpt, state.Leaves cpt → ∃ item ∈ classItems c, ItemMatches cpt item

/-- The first bytes of a character pass a class exactly when some character that begins with them
does, where an item that meets the interval of values holds a character of it, or the items of a
negated class hold all of them; and nowhere else. -/
theorem matchPartialChar_iff {rules : Rules} {pos : Pos} {c : CharClass}
    (class_ : ClassAt rules pos c) {first : List Byte} {cpt : Nat} (scalar : IsScalar cpt)
    (isPrefix : first <+: Vocab.utf8Bytes cpt) (begun : first ≠ [])
    (proper : first ≠ Vocab.utf8Bytes cpt) :
    (matchPartialChar rules pos (decodeUtf8 first ⟨0, 0⟩).2 = true ↔
      ∃ completion other, IsScalar other ∧ Vocab.utf8Bytes other = first ++ completion ∧
        (matchChar rules pos other).1 = true) ↔
    MeetsScalars (isPositiveChar (elementAt rules pos)) c (decodeUtf8 first ⟨0, 0⟩).2 := by
  have taken := prefix_iff_eq_take.mp isPrefix
  have positive : 0 < first.length := length_pos_of_ne_nil begun
  have inside : first.length < utf8Length cpt := by
    rw [← length_utf8Bytes scalar.1]
    exact lt_of_le_of_ne isPrefix.length_le fun same => proper (isPrefix.eq_of_length same)
  have interval : ∀ other, IsScalar other →
      (first <+: Vocab.utf8Bytes other ↔ (decodeUtf8 first ⟨0, 0⟩).2.Leaves other) := by
    intro other otherScalar
    have here := interval_iff scalar.1 otherScalar.1 positive inside
    rw [← taken] at here
    exact here.trans ⟨fun within => ⟨otherScalar, within⟩, fun leaves => leaves.2⟩
  have valid : ¬ ((decodeUtf8 first ⟨0, 0⟩).2.nRemain < 0 ∨
      (decodeUtf8 first ⟨0, 0⟩).2.nRemain = 1 ∧ (decodeUtf8 first ⟨0, 0⟩).2.value < 2) := by
    have left := decodeUtf8_take scalar.1 positive inside
    rw [← taken] at left
    rw [left]
    rintro (negative | ⟨one, small⟩)
    · exact absurd negative (not_lt.mpr (Int.natCast_nonneg _))
    · have missing : utf8Length cpt - first.length = 1 := Int.natCast_inj.mp one
      rw [missing, Nat.shiftRight_eq_div_pow] at small
      change cpt / 64 < 2 at small
      have lengths := utf8Length_cases scalar.1
      omega
  generalize (decodeUtf8 first ⟨0, 0⟩).2 = state at interval valid
  have completes : (∃ completion other, IsScalar other ∧
      Vocab.utf8Bytes other = first ++ completion ∧ (matchChar rules pos other).1 = true) ↔
      ∃ other, state.Leaves other ∧ (matchChar rules pos other).1 = true := by
    constructor
    · rintro ⟨completion, other, otherScalar, bytes, passes⟩
      exact ⟨other, (interval other otherScalar).mp ⟨completion, bytes.symm⟩, passes⟩
    · rintro ⟨other, leaves, passes⟩
      obtain ⟨completion, bytes⟩ := (interval other leaves.1).mpr leaves
      exact ⟨completion, other, leaves.1, bytes.symm, passes⟩
  have meets : ∀ other, state.Leaves other → (∃ item ∈ classItems c, ItemMatches other item) →
      ∃ item ∈ classItems c, ItemMeets state.lowest state.highest item :=
    fun other leaves ⟨item, member, hit⟩ => ⟨item, member, hit.meets leaves.2⟩
  have own : state.Leaves cpt := (interval cpt scalar).mp isPrefix
  rw [completes, class_.matchPartialChar_meets state valid]
  simp only [class_.matchChar_iff]
  cases isPositiveChar (elementAt rules pos) with
  | true =>
    simp only [true_iff]
    exact ⟨Iff.mp, fun found => ⟨found, fun ⟨other, leaves, hit⟩ => meets other leaves hit⟩⟩
  | false =>
    simp only [Bool.false_eq_true, false_iff]
    constructor
    · intro alike met other leaves
      by_contra missed
      exact alike.mpr ⟨other, leaves, missed⟩ met
    · intro covers
      constructor
      · exact fun unmet => ⟨cpt, own, fun hit => unmet (meets cpt own hit)⟩
      · exact fun ⟨other, leaves, missed⟩ met => missed (covers met other leaves)

/-- `[a-\u00e9]` and `[^\u00e9]`. -/
def accentClasses : Rules :=
  [[⟨.char, 0x61⟩, ⟨.charRngUpper, 0xE9⟩, ⟨.end, 0⟩], [⟨.charNot, 0xE9⟩, ⟨.end, 0⟩]]

theorem accentClasses_range : ClassAt accentClasses ⟨0, 0⟩ [⟨.char, 0x61⟩, ⟨.charRngUpper, 0xE9⟩] :=
  ⟨⟨[⟨.end, 0⟩], rfl, by decide⟩, rfl, rfl⟩

theorem accentClasses_negated : ClassAt accentClasses ⟨1, 0⟩ [⟨.charNot, 0xE9⟩] :=
  ⟨⟨[⟨.end, 0⟩], rfl, by decide⟩, rfl, rfl⟩

theorem matchPartialChar_iff_at_range :
    matchPartialChar accentClasses ⟨0, 0⟩ (decodeUtf8 [0xC3] ⟨0, 0⟩).2 = true ↔
      ∃ completion other, IsScalar other ∧ Vocab.utf8Bytes other = [0xC3] ++ completion ∧
        (matchChar accentClasses ⟨0, 0⟩ other).1 = true :=
  (matchPartialChar_iff accentClasses_range (show IsScalar 0xE8 by unfold IsScalar; omega)
    (by decide) (by decide) (by decide)).mpr fun _ =>
      ⟨0xE8, ⟨by unfold IsScalar; omega, by decide⟩, _, mem_singleton_self _, by
        simp [ItemMatches]⟩

/-- The byte C3 may go on to another letter than the one that `[^\u00e9]` leaves out, but does not
pass. -/
theorem negatedClass_stops_prefix :
    ¬ ∀ (rules : Rules) (pos : Pos) (c : CharClass), ClassAt rules pos c →
      ∀ (first : List Byte) (cpt : Nat), IsScalar cpt → first <+: Vocab.utf8Bytes cpt →
        first ≠ [] → first ≠ Vocab.utf8Bytes cpt →
      (matchPartialChar rules pos (decodeUtf8 first ⟨0, 0⟩).2 = true ↔
        ∃ completion other, IsScalar other ∧ Vocab.utf8Bytes other = first ++ completion ∧
          (matchChar rules pos other).1 = true) := by
  intro claimed
  have passes := (claimed accentClasses ⟨1, 0⟩ _ accentClasses_negated [0xC3] 0xE8
    (by unfold IsScalar; omega) (by decide) (by decide) (by decide)).mpr
      ⟨[0xA8], 0xE8, by unfold IsScalar; omega, by decide, by decide⟩
  exact absurd passes (by decide)

end LlamaCpp.Grammar
