import Mathlib.Data.List.Induction
import Mathlib.Tactic.Ring

/-!
# Decimal texts

The text of a number is a text of digits without superfluous zeros, and the only one with its
value.  Texts of one length are ordered as their values are.
-/

set_option autoImplicit false

namespace LlamaCpp.Lib

open List

def IsDigits (text : List Nat) : Prop := ∀ ch ∈ text, 0x30 ≤ ch ∧ ch ≤ 0x39

/-- The digits of a number, as `std::to_string` writes them. -/
def decimalText (n : Nat) : List Nat :=
  if n < 10 then [0x30 + n] else decimalText (n / 10) ++ [0x30 + n % 10]

def valueOf (text : List Nat) : Nat := text.foldl (fun value ch => 10 * value + (ch - 0x30)) 0

/-- Digits, of which the first is no zero unless it is the only one. -/
structure Canonical (text : List Nat) : Prop where
  digits : IsDigits text
  some_ : text ≠ []
  lead : text.head? = some 0x30 → text.length = 1

variable {text other : List Nat} {ch n m : Nat}

theorem valueOf_concat (text : List Nat) (ch : Nat) :
    valueOf (text ++ [ch]) = 10 * valueOf text + (ch - 0x30) := by
  simp [valueOf]

theorem valueOf_cons (ch : Nat) (text : List Nat) :
    valueOf (ch :: text) = (ch - 0x30) * 10 ^ text.length + valueOf text := by
  induction text using reverseRecOn with
  | nil => simp [valueOf]
  | append_singleton text last ih =>
    rw [← cons_append, valueOf_concat, ih, valueOf_concat, length_append, length_singleton]
    ring

theorem IsDigits.tail (digits : IsDigits (ch :: text)) : IsDigits text :=
  fun c member => digits c (mem_cons_of_mem _ member)

theorem valueOf_lt (digits : IsDigits text) : valueOf text < 10 ^ text.length := by
  induction text with
  | nil => simp [valueOf]
  | cons ch text ih =>
    have here := digits ch mem_cons_self
    have rest := ih digits.tail
    have first : (ch - 0x30) * 10 ^ text.length ≤ 9 * 10 ^ text.length :=
      Nat.mul_le_mul_right _ (by omega)
    rw [valueOf_cons, length_cons]
    omega

/-- Texts of one length are compared from the first digit on. -/
theorem valueOf_cons_le {a b : Nat} (left : IsDigits (a :: text)) (right : IsDigits (b :: other))
    (same : text.length = other.length) :
    valueOf (a :: text) ≤ valueOf (b :: other) ↔ a < b ∨ a = b ∧ valueOf text ≤ valueOf other := by
  have aDigit := left a mem_cons_self
  have bDigit := right b mem_cons_self
  have aLess := valueOf_lt left.tail
  have bLess := valueOf_lt right.tail
  rw [valueOf_cons, valueOf_cons, ← same]
  rw [← same] at bLess
  generalize 10 ^ text.length = p at *
  rcases lt_trichotomy a b with less | rfl | more
  · obtain ⟨k, rfl⟩ := Nat.exists_eq_add_of_lt less
    have split : (a + k + 1 - 0x30) * p = (a - 0x30) * p + k * p + p := by
      rw [show a + k + 1 - 0x30 = (a - 0x30) + k + 1 by omega]
      ring
    exact iff_of_true (by omega) (Or.inl less)
  · simp
  · obtain ⟨k, rfl⟩ := Nat.exists_eq_add_of_lt more
    have split : (b + k + 1 - 0x30) * p = (b - 0x30) * p + k * p + p := by
      rw [show b + k + 1 - 0x30 = (b - 0x30) + k + 1 by omega]
      ring
    exact iff_of_false (by omega) (by omega)

theorem eq_of_valueOf_eq (left : IsDigits text) (right : IsDigits other)
    (same : text.length = other.length) (equal : valueOf text = valueOf other) : text = other := by
  induction text generalizing other with
  | nil => exact (length_eq_zero_iff.mp same.symm).symm
  | cons a text ih =>
    obtain ⟨b, other, rfl⟩ := exists_cons_of_length_eq_add_one same.symm
    rw [length_cons, length_cons, Nat.add_right_cancel_iff] at same
    have low := (valueOf_cons_le left right same).mp equal.le
    have high := (valueOf_cons_le right left same.symm).mp equal.ge
    obtain rfl : a = b := by omega
    rw [ih left.tail right.tail same (by omega)]

theorem valueOf_replicate_zero (k : Nat) : valueOf (replicate k 0x30) = 0 := by
  induction k with
  | zero => rfl
  | succ k ih => simp [replicate_succ, valueOf_cons, ih]

theorem valueOf_replicate_nine (k : Nat) : valueOf (replicate k 0x39) + 1 = 10 ^ k := by
  induction k with
  | zero => rfl
  | succ k ih =>
    rw [replicate_succ, valueOf_cons, length_replicate]
    omega

theorem isDigits_replicate (k : Nat) (digit : 0x30 ≤ ch ∧ ch ≤ 0x39) : IsDigits (replicate k ch) :=
  fun _ member => (eq_of_mem_replicate member) ▸ digit

theorem decimalText_small (small : n ≤ 9) : decimalText n = [0x30 + n] := by
  rw [decimalText, if_pos (by omega)]

theorem decimalText_ge (large : 10 ≤ n) :
    decimalText n = decimalText (n / 10) ++ [0x30 + n % 10] := by
  rw [decimalText, if_neg (by omega)]

theorem valueOf_decimalText (n : Nat) : valueOf (decimalText n) = n := by
  fun_induction decimalText n with
  | case1 n small => simp [valueOf]
  | case2 n large ih =>
    rw [valueOf_concat]
    omega

theorem canonical_decimalText (n : Nat) : Canonical (decimalText n) := by
  have lead : ∀ n, 0 < n → (decimalText n).head? ≠ some 0x30 := by
    intro n
    fun_induction decimalText n with
    | case1 n small =>
      intro positive
      simp
      omega
    | case2 n large ih =>
      intro positive
      have nonempty : decimalText (n / 10) ≠ [] := by
        unfold decimalText
        split <;> simp
      obtain ⟨c, rest, same⟩ := exists_cons_of_ne_nil nonempty
      rw [same] at ih ⊢
      exact ih (by omega)
  refine ⟨?_, ?_, fun zero => ?_⟩
  · fun_induction decimalText n with
    | case1 n small =>
      intro ch member
      rw [mem_singleton] at member
      omega
    | case2 n large ih =>
      intro ch member
      rcases mem_append.mp member with front | last
      · exact ih ch front
      · rw [mem_singleton] at last
        omega
  · unfold decimalText
    split <;> simp
  · rcases Nat.eq_zero_or_pos n with rfl | positive
    · simp [decimalText]
    · exact absurd zero (lead n positive)

theorem Canonical.bound (canonical : Canonical text) (long : 2 ≤ text.length) :
    10 ^ (text.length - 1) ≤ valueOf text := by
  cases text with
  | nil => exact absurd rfl canonical.some_
  | cons ch text =>
    have digit := canonical.digits ch mem_cons_self
    have lead : ch ≠ 0x30 := by
      rintro rfl
      have := canonical.lead rfl
      omega
    rw [valueOf_cons, length_cons, Nat.add_sub_cancel]
    have : 1 * 10 ^ text.length ≤ (ch - 0x30) * 10 ^ text.length := Nat.mul_le_mul_right _ (by omega)
    omega

/-- By induction on the text: the last digit is the remainder of its value. -/
theorem decimalText_valueOf (canonical : Canonical text) : decimalText (valueOf text) = text := by
  induction text using reverseRecOn with
  | nil => exact absurd rfl canonical.some_
  | append_singleton text last ih =>
    have digit := canonical.digits last (mem_append_right _ (mem_singleton_self _))
    rw [valueOf_concat]
    cases text with
    | nil =>
      rw [decimalText, if_pos (by simp [valueOf]; omega)]
      simp [valueOf]
      omega
    | cons ch text =>
      have lead : ch ≠ 0x30 := by
        rintro rfl
        have := canonical.lead rfl
        simp at this
      have inner : Canonical (ch :: text) :=
        ⟨fun c member => canonical.digits c (mem_append_left _ member), cons_ne_nil _ _,
          fun zero => absurd (Option.some.inj zero) lead⟩
      have positive : 0 < valueOf (ch :: text) := by
        have := inner.digits ch mem_cons_self
        rw [valueOf_cons]
        have : 0 < (ch - 0x30) * 10 ^ text.length := Nat.mul_pos (by omega) (Nat.pow_pos (by omega))
        omega
      rw [decimalText_ge (by omega), show (10 * valueOf (ch :: text) + (last - 0x30)) / 10 =
        valueOf (ch :: text) by omega, ih inner]
      congr 2
      omega

theorem canonical_iff : Canonical text ↔ ∃ n, text = decimalText n :=
  ⟨fun canonical => ⟨valueOf text, (decimalText_valueOf canonical).symm⟩,
    fun ⟨n, same⟩ => same ▸ canonical_decimalText n⟩

/-- A number with fewer digits is smaller. -/
theorem lt_of_length_lt (shorter : (decimalText n).length < (decimalText m).length) : n < m := by
  have some_ := length_pos_iff.mpr (canonical_decimalText n).some_
  have below := valueOf_lt (canonical_decimalText n).digits
  have above := (canonical_decimalText m).bound (by omega)
  rw [valueOf_decimalText] at below above
  exact below.trans_le ((Nat.pow_le_pow_right (by omega) (by omega)).trans above)

theorem decimalText_pow (k : Nat) : decimalText (10 ^ k) = 0x31 :: replicate k 0x30 := by
  have canonical : Canonical (0x31 :: replicate k 0x30) := by
    refine ⟨fun ch member => ?_, cons_ne_nil _ _, nofun⟩
    rcases mem_cons.mp member with rfl | zero
    · omega
    · rw [eq_of_mem_replicate zero]
      omega
  rw [← decimalText_valueOf canonical, valueOf_cons, valueOf_replicate_zero]
  simp

theorem decimalText_nines {k : Nat} (positive : 0 < k) :
    decimalText (10 ^ k - 1) = replicate k 0x39 := by
  have canonical : Canonical (replicate k 0x39) := by
    refine ⟨isDigits_replicate k (by omega), by simp; omega, fun zero => ?_⟩
    rw [head?_replicate, if_neg positive.ne'] at zero
    cases zero
  have value := valueOf_replicate_nine k
  rw [← decimalText_valueOf canonical, ← value, Nat.add_sub_cancel]

theorem length_decimalText_le (le : n ≤ m) : (decimalText n).length ≤ (decimalText m).length := by
  by_contra longer
  have := lt_of_length_lt (not_le.mp longer)
  omega

theorem length_decimalText_le_of_lt {k : Nat} (some_ : 0 < k) (less : n < 10 ^ k) :
    (decimalText n).length ≤ k := by
  by_contra longer
  have bound := (canonical_decimalText n).bound (by omega)
  rw [valueOf_decimalText] at bound
  have := Nat.pow_le_pow_right (n := 10) (by omega) (show k ≤ (decimalText n).length - 1 by omega)
  omega

theorem canonical_cons (digits : IsDigits (ch :: text)) (lead : ch ≠ 0x30) : Canonical (ch :: text) :=
  ⟨digits, cons_ne_nil _ _, fun zero => absurd (Option.some.inj zero) lead⟩

/-- From two digits on the first one is no zero. -/
theorem exists_decimalText_cons (large : 10 ≤ n) : ∃ c rest, decimalText n = c :: rest ∧ 0x31 ≤ c ∧
    c ≤ 0x39 ∧ IsDigits rest ∧ rest ≠ [] := by
  have canonical := canonical_decimalText n
  have value := valueOf_decimalText n
  obtain ⟨c, rest, same⟩ := exists_cons_of_ne_nil canonical.some_
  rw [same] at canonical value
  have digit := canonical.digits c mem_cons_self
  have below := valueOf_lt canonical.digits
  have some_ : rest ≠ [] := by
    rintro rfl
    simp at below
    omega
  refine ⟨c, rest, same, ?_, digit.2, canonical.digits.tail, some_⟩
  have lead : c ≠ 0x30 := by
    rintro rfl
    have := canonical.lead rfl
    exact some_ (length_eq_zero_iff.mp (by simpa using this))
  omega

end LlamaCpp.Lib
