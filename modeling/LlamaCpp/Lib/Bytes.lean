import Mathlib.Data.List.Basic
import Mathlib.Algebra.Group.Nat.Defs

/-!
# Bytes

Little-endian integers of a fixed width as lists of bytes, the scalar at an offset of a longer
list, and the search for a text in a longer one.
-/

set_option autoImplicit false

namespace LlamaCpp.Lib

open List

abbrev Bytes := List UInt8

/-- The lowest `width` bytes of `value`, the lowest first. -/
def leBytes : Nat → Nat → Bytes
  | 0, _ => []
  | width + 1, value => UInt8.ofNat value :: leBytes width (value / 256)

def ofLeBytes : Bytes → Nat
  | [] => 0
  | byte :: rest => byte.toNat + 256 * ofLeBytes rest

@[simp] theorem length_leBytes (width value : Nat) : (leBytes width value).length = width := by
  induction width generalizing value with
  | zero => rfl
  | succ width ih => rw [leBytes, length_cons, ih]

theorem ofLeBytes_leBytes (width value : Nat) :
    ofLeBytes (leBytes width value) = value % 256 ^ width := by
  induction width generalizing value with
  | zero => rw [leBytes, ofLeBytes, Nat.pow_zero, Nat.mod_one]
  | succ width ih =>
    have low : (UInt8.ofNat value).toNat = value % 256 := rfl
    rw [leBytes, ofLeBytes, ih, low, Nat.pow_succ, mul_comm _ 256, Nat.mod_mul]

theorem ofLeBytes_leBytes_of_lt {width value : Nat} (fits : value < 256 ^ width) :
    ofLeBytes (leBytes width value) = value := by
  rw [ofLeBytes_leBytes, Nat.mod_eq_of_lt fits]

theorem leBytes_ofLeBytes (bytes : Bytes) : leBytes bytes.length (ofLeBytes bytes) = bytes := by
  induction bytes with
  | nil => rfl
  | cons byte rest ih =>
    have small := byte.toNat_lt
    have low : UInt8.ofNat (byte.toNat + 256 * ofLeBytes rest) = byte := by
      apply UInt8.toNat_inj.mp
      rw [UInt8.toNat_ofNat']
      omega
    have high : (byte.toNat + 256 * ofLeBytes rest) / 256 = ofLeBytes rest := by omega
    rw [length_cons, ofLeBytes, leBytes, low, high, ih]

theorem ofLeBytes_injective {one other : Bytes} (length : one.length = other.length)
    (value : ofLeBytes one = ofLeBytes other) : one = other := by
  rw [← leBytes_ofLeBytes one, ← leBytes_ofLeBytes other, length, value]

theorem ofLeBytes_lt (bytes : Bytes) : ofLeBytes bytes < 256 ^ bytes.length := by
  induction bytes with
  | nil => exact Nat.one_pos
  | cons byte rest ih =>
    have small := byte.toNat_lt
    rw [ofLeBytes, length_cons]
    omega

theorem bitVec_ofLeBytes {width bits : Nat} (whole : bits = 8 * width) (value : BitVec bits) :
    BitVec.ofNat bits (ofLeBytes (leBytes width value.toNat)) = value := by
  have fits : value.toNat < 256 ^ width := by
    have same : (2 : Nat) ^ bits = 256 ^ width := by rw [whole, Nat.pow_mul]
    omega
  rw [ofLeBytes_leBytes_of_lt fits, BitVec.ofNat_toNat, BitVec.setWidth_eq]

/-- `std::string::find`. -/
def findText (phrase text : Bytes) : Option Nat :=
  (List.range (text.length + 1)).find? fun start => phrase.isPrefixOf (text.drop start)

variable {phrase text : Bytes} {pos : Nat}

section

variable (found : findText phrase text = some pos)
include found

theorem findText_le : pos ≤ text.length := by
  have inside := mem_range.mp (mem_of_find?_eq_some found)
  omega

theorem infix_of_findText : phrase <:+: text := by
  have here := List.find?_some found
  exact ( isPrefixOf_iff_prefix.mp here).isInfix.trans (drop_suffix pos text).isInfix

theorem findText_spec :
    phrase <+: text.drop pos ∧ ∀ n, n < pos → ¬ phrase <+: text.drop n := by
  obtain ⟨here, -, earlier⟩ := List.find?_range_eq_some.mp found
  refine ⟨ isPrefixOf_iff_prefix.mp here, fun n before occurs => ?_⟩
  have fails := earlier n before
  rw [ isPrefixOf_iff_prefix.mpr occurs] at fails
  contradiction

end

theorem not_infix_of_findText (none_ : findText phrase text = none) : ¬ phrase <:+: text := by
  rintro ⟨front, back, rfl⟩
  have fails := List.find?_range_eq_none.mp none_ front.length
    (by simp only [length_append]; omega)
  rw [append_assoc, drop_left,
    isPrefixOf_iff_prefix.mpr (prefix_append phrase back)] at fails
  contradiction

end LlamaCpp.Lib
