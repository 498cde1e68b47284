import LlamaCpp.Peg.ExcludingPattern

/-!
# Pieces of grammar rules

The expressions that the converter of schemas puts its rules together from.
-/

set_option autoImplicit false

namespace LlamaCpp.Schema

open LlamaCpp.Peg List

abbrev quote : Nat := 0x22

abbrev backslash : Nat := 0x5C

def oneOf (chars : List Nat) : GbnfExpr := .alt (chars.map fun ch => .literal [ch])

def optional (body : GbnfExpr) : GbnfExpr := .alt [body, .literal []]

/-- Between so many and so many times, which is never when the bounds cross. -/
def repeated (body : GbnfExpr) : Nat → Nat → GbnfExpr
  | 0, 0 => .literal []
  | 0, n + 1 => optional (.seq body (repeated body 0 n))
  | _ + 1, 0 => .alt []
  | m + 1, n + 1 => .seq body (repeated body m n)

def codes (text : String) : List Nat := text.toList.map Char.toNat

def hexClass : GbnfExpr := oneOf (codes "0123456789abcdefABCDEF")

def spaceRule : GbnfExpr :=
  .alt [.literal [], .literal [0x20],
    .seq (repeated (.literal [0x0A]) 1 2) (repeated (oneOf [0x20, 0x09]) 0 20)]

variable {first second body : GbnfExpr} {options : List GbnfExpr} {chars text : List Nat}

theorem generates_literal : Generates (.literal chars) text ↔ text = chars := by
  constructor
  · rintro ⟨⟩
    rfl
  · rintro rfl
    exact .literal _

theorem generates_seq : Generates (.seq first second) text ↔
    ∃ u v, text = u ++ v ∧ Generates first u ∧ Generates second v := by
  constructor
  · rintro (_ | _ | ⟨left, right⟩)
    exact ⟨_, _, rfl, left, right⟩
  · rintro ⟨u, v, rfl, left, right⟩
    exact .seq left right

theorem generates_alt : Generates (.alt options) text ↔ ∃ option_ ∈ options, Generates option_ text := by
  constructor
  · rintro (_ | _ | _ | ⟨member, generated⟩)
    exact ⟨_, member, generated⟩
  · rintro ⟨option_, member, generated⟩
    exact .alt member generated

theorem generates_oneOf : Generates (oneOf chars) text ↔ ∃ ch ∈ chars, text = [ch] := by
  simp [oneOf, generates_alt, generates_literal]

theorem generates_optional : Generates (optional body) text ↔ Generates body text ∨ text = [] := by
  simp [optional, generates_alt, generates_literal]

/-- A sequence that begins with one of some characters. -/
theorem generates_oneOf_seq : Generates (.seq (oneOf chars) second) text ↔
    ∃ ch ∈ chars, ∃ rest, text = ch :: rest ∧ Generates second rest := by
  rw [generates_seq]
  constructor
  · rintro ⟨u, v, rfl, first, right⟩
    obtain ⟨ch, member, rfl⟩ := generates_oneOf.mp first
    exact ⟨ch, member, v, rfl, right⟩
  · rintro ⟨ch, member, rest, rfl, right⟩
    exact ⟨[ch], rest, rfl, generates_oneOf.mpr ⟨ch, member, rfl⟩, right⟩

theorem generates_literal_seq : Generates (.seq (.literal chars) second) text ↔
    ∃ rest, text = chars ++ rest ∧ Generates second rest := by
  simp [generates_seq, generates_literal]

/-- Characters of a class, as many as the bounds allow. -/
theorem generates_repeated (m n : Nat) : Generates (repeated (oneOf chars) m n) text ↔
    (∀ ch ∈ text, ch ∈ chars) ∧ m ≤ text.length ∧ text.length ≤ n := by
  fun_induction repeated (oneOf chars) m n generalizing text with
  | case1 =>
    rw [generates_literal, Nat.le_zero, length_eq_zero_iff]
    constructor
    · rintro rfl
      simp
    · exact fun all => all.2.2
  | case2 n ih =>
    rw [generates_optional, generates_oneOf_seq]
    cases text with
    | nil => simp
    | cons ch text => simp [ih, and_assoc]
  | case3 =>
    simp only [generates_alt, not_mem_nil, false_and, exists_false, false_iff]
    omega
  | case4 m n ih =>
    rw [generates_oneOf_seq]
    cases text with
    | nil => simp
    | cons ch text => simp [ih, and_assoc]

end LlamaCpp.Schema
