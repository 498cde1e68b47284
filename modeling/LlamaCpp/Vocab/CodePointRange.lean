import LlamaCpp.Vocab.NaiveMerges
import Mathlib.Data.List.Infix

/-!
# Forms beyond the last code point

The decoder takes every four-byte form that begins with one of the bytes F0 to F7, and so
reads code points up to 1FFFFF, while the encoder refuses what is above 10FFFF.  A lead byte
is no continuation byte, so the decoder comes to every form of a text: its code points can be
written exactly when the text holds no form above the last code point.
-/

set_option autoImplicit false

namespace LlamaCpp.Vocab

open LlamaCpp.Lib List

/-- A text that begins with a four-byte form above 10FFFF: F4 before 90 or more, or F5 to F7. -/
def BeginsBeyond : Bytes → Prop
  | first :: second :: third :: fourth :: _ =>
    (first.toNat = 0xf4 ∧ 0x90 ≤ second.toNat ∨ 0xf5 ≤ first.toNat ∧ first.toNat ≤ 0xf7) ∧
      isContinuation second = true ∧ isContinuation third = true ∧ isContinuation fourth = true
  | _ => False

def HoldsBeyond (text : Bytes) : Prop := ∃ rest, rest <:+ text ∧ BeginsBeyond rest

theorem not_holdsBeyond_nil : ¬ HoldsBeyond [] := by
  rintro ⟨rest, suffix, begins⟩
  rw [suffix_nil.mp suffix] at begins
  exact begins

variable {rest text : Bytes}

theorem holdsBeyond_cons {byte : UInt8} :
    HoldsBeyond (byte :: rest) ↔ BeginsBeyond (byte :: rest) ∨ HoldsBeyond rest := by
  constructor
  · rintro ⟨form, suffix, begins⟩
    rcases suffix_cons_iff.mp suffix with here | later
    · exact Or.inl (here ▸ begins)
    · exact Or.inr ⟨form, later, begins⟩
  · rintro (begins | ⟨form, later, begins⟩)
    · exact ⟨_, suffix_refl _, begins⟩
    · exact ⟨form, suffix_cons_iff.mpr (Or.inr later), begins⟩

theorem isContinuation_iff (byte : UInt8) :
    isContinuation byte = true ↔ 0x80 ≤ byte.toNat ∧ byte.toNat < 0xc0 := by
  revert byte
  exact forall_byte (by decide +kernel)

theorem holdsBeyond_continuation {byte : UInt8} (continues : isContinuation byte = true) :
    HoldsBeyond (byte :: rest) ↔ HoldsBeyond rest := by
  rw [holdsBeyond_cons]
  apply or_iff_right
  have range := (isContinuation_iff byte).mp continues
  intro begins
  match rest with
  | second :: third :: fourth :: _ =>
    obtain ⟨lead, -⟩ := begins
    omega

theorem lead_range (byte : UInt8) :
    (byte &&& 0x80 = 0 ↔ byte.toNat < 0x80) ∧
      (0x80 ≤ byte.toNat → (byte &&& 0x40 = 0 ↔ byte.toNat < 0xc0)) ∧
      (0xc0 ≤ byte.toNat → (byte &&& 0x20 = 0 ↔ byte.toNat < 0xe0)) ∧
      (0xe0 ≤ byte.toNat → (byte &&& 0x10 = 0 ↔ byte.toNat < 0xf0)) ∧
      (0xf0 ≤ byte.toNat → (byte &&& 0x08 = 0 ↔ byte.toNat ≤ 0xf7)) := by
  revert byte
  exact forall_byte (by decide +kernel)

theorem not_beginsBeyond_of_lt {first : UInt8} (low : first.toNat < 0xf0) :
    ¬ BeginsBeyond (first :: rest) := by
  intro begins
  match rest with
  | second :: third :: fourth :: _ =>
    obtain ⟨lead, -⟩ := begins
    omega

structure ReadForm (text : Bytes) (cpt : Nat) (rest : Bytes) : Prop where
  parts : ∃ lead continuations, text = lead :: (continuations ++ rest) ∧
    ∀ byte ∈ continuations, isContinuation byte = true
  beyond : 0x10ffff < cpt ↔ BeginsBeyond text

theorem lowBits_lt (byte : UInt8) (bits : Nat) : lowBits byte bits < 2 ^ bits := by
  rw [lowBits_eq]
  exact Nat.mod_lt _ (Nat.two_pow_pos bits)

theorem ReadForm.short {lead : UInt8} {continuations rest : Bytes} {cpt : Nat}
    (low : lead.toNat < 0xf0) (tail : ∀ byte ∈ continuations, isContinuation byte = true)
    (fits : cpt ≤ 0xffff) : ReadForm (lead :: (continuations ++ rest)) cpt rest :=
  ⟨⟨lead, continuations, rfl, tail⟩,
    iff_of_false (by omega) (not_beginsBeyond_of_lt low)⟩

theorem ReadForm.long {first second third fourth : UInt8}
    (lead : 0xf0 ≤ first.toNat ∧ first.toNat ≤ 0xf7)
    (continues : isContinuation second = true ∧ isContinuation third = true ∧ isContinuation fourth = true) :
    ReadForm (first :: second :: third :: fourth :: rest)
      (lowBits first 3 <<< 18 ||| lowBits second 6 <<< 12 ||| lowBits third 6 <<< 6 |||
        lowBits fourth 6) rest := by
  have range := (isContinuation_iff second).mp continues.1
  have high : lowBits first 3 = first.toNat - 0xf0 := by rw [lowBits_eq]; omega
  have next : lowBits second 6 = second.toNat - 0x80 := by rw [lowBits_eq]; omega
  have value : lowBits first 3 <<< 18 ||| lowBits second 6 <<< 12 ||| lowBits third 6 <<< 6 |||
      lowBits fourth 6 = lowBits first 3 * 2 ^ 18 + (lowBits second 6 * 2 ^ 12 +
        (lowBits third 6 * 2 ^ 6 + lowBits fourth 6)) := by
    have thirdLow := lowBits_lt third 6
    have fourthLow := lowBits_lt fourth 6
    rw [Nat.or_assoc, Nat.or_assoc, shiftLeft_or _ fourthLow,
      shiftLeft_or (lowBits second 6) (by omega), shiftLeft_or (lowBits first 3) (by omega)]
  refine ⟨⟨first, [second, third, fourth], rfl, by simp [continues]⟩, ?_⟩
  have thirdLow := lowBits_lt third 6
  have fourthLow := lowBits_lt fourth 6
  rw [value, BeginsBeyond, and_iff_left continues, next]
  omega

theorem readForm_of_ok {cpt : Nat} (read : unicodeCptFromUtf8 text = .ok (cpt, rest)) :
    ReadForm text cpt rest := by
  cases text with
  | nil => cases read
  | cons first more =>
    obtain ⟨ascii, continuation, two, three, four⟩ := lead_range first
    unfold unicodeCptFromUtf8 at read
    dsimp only at read
    by_cases isAscii : first &&& 0x80 = 0
    · rw [if_pos isAscii] at read
      have low := ascii.mp isAscii
      cases read
      exact @ReadForm.short _ [] _ _ (by omega) (fun _ impossible => by cases impossible) (by omega)
    have above := mt ascii.mpr isAscii
    rw [if_neg isAscii] at read
    by_cases isCont : first &&& 0x40 = 0
    · rw [if_pos isCont] at read
      cases read
    have lead := mt (continuation (by omega)).mpr isCont
    rw [if_neg isCont] at read
    by_cases isTwo : first &&& 0x20 = 0
    · rw [if_pos isTwo] at read
      have low := (two (by omega)).mp isTwo
      split at read
      · rename_i second more
        split at read
        · rename_i continues
          cases read
          have high := lowBits_lt first 5
          have last := lowBits_lt second 6
          refine @ReadForm.short _ [second] _ _ (by omega) (by simpa using continues) ?_
          rw [shiftLeft_or _ last]
          omega
        · cases read
      · cases read
    have notTwo := mt (two (by omega)).mpr isTwo
    rw [if_neg isTwo] at read
    by_cases isThree : first &&& 0x10 = 0
    · rw [if_pos isThree] at read
      have low := (three (by omega)).mp isThree
      split at read
      · rename_i second third more
        split at read
        · rename_i continues
          cases read
          have high := lowBits_lt first 4
          have next := lowBits_lt second 6
          have last := lowBits_lt third 6
          refine @ReadForm.short _ [second, third] _ _ (by omega) (by simpa using continues) ?_
          rw [Nat.or_assoc, shiftLeft_or _ last, shiftLeft_or _ (by omega)]
          omega
        · cases read
      · cases read
    have notThree := mt (three (by omega)).mpr isThree
    rw [if_neg isThree] at read
    by_cases isFour : first &&& 0x08 = 0
    · rw [if_pos isFour] at read
      have low := (four (by omega)).mp isFour
      split at read
      · split at read
        · rename_i continues
          cases read
          exact .long ⟨by omega, low⟩ continues
        · cases read
      · cases read
    · rw [if_neg isFour] at read
      cases read

theorem exists_read_of_beginsBeyond (begins : BeginsBeyond text) :
    ∃ cpt rest, unicodeCptFromUtf8 text = .ok (cpt, rest) := by
  match text with
  | first :: second :: third :: fourth :: rest =>
    obtain ⟨lead, continues⟩ := begins
    obtain ⟨notOne, cont, notTwo, notThree, isFour⟩ := lead_four first (by omega)
    simp only [unicodeCptFromUtf8, if_neg notOne, if_neg cont, if_neg notTwo, if_neg notThree,
      if_pos isFour, if_pos continues]
    exact ⟨_, _, rfl⟩

theorem holdsBeyond_append {continuations : Bytes}
    (continues : ∀ byte ∈ continuations, isContinuation byte = true) :
    HoldsBeyond (continuations ++ rest) ↔ HoldsBeyond rest := by
  induction continuations with
  | nil => rfl
  | cons byte more ih =>
    rw [cons_append, holdsBeyond_continuation (continues byte mem_cons_self)]
    exact ih fun other member => continues other (mem_cons_of_mem _ member)

theorem ReadForm.holdsBeyond {cpt : Nat} (form : ReadForm text cpt rest) :
    HoldsBeyond text ↔ 0x10ffff < cpt ∨ HoldsBeyond rest := by
  obtain ⟨⟨lead, continuations, parts, continues⟩, beyond⟩ := form
  rw [beyond, parts, holdsBeyond_cons, holdsBeyond_append continues]

theorem cptsFromUtf8Loop_inRange {fuel : Nat} (enough : text.length ≤ fuel) :
    (∀ cpt ∈ cptsFromUtf8Loop fuel text, cpt ≤ 0x10ffff) ↔ ¬ HoldsBeyond text := by
  induction fuel generalizing text with
  | zero =>
    rw [length_eq_zero_iff.mp (Nat.le_zero.mp enough)]
    exact iff_of_true (fun _ impossible => by cases impossible) not_holdsBeyond_nil
  | succ fuel ih =>
    cases text with
    | nil => exact iff_of_true (fun _ impossible => by cases impossible) not_holdsBeyond_nil
    | cons byte more =>
      rw [length_cons] at enough
      rw [cptsFromUtf8Loop]
      cases read : unicodeCptFromUtf8 (byte :: more) with
      | ok result =>
        have form := readForm_of_ok read
        obtain ⟨lead, continuations, parts, -⟩ := form.parts
        have shorter := congrArg List.length parts
        rw [length_cons, length_cons, length_append] at shorter
        simp only [forall_mem_cons]
        rw [ih (by omega), form.holdsBeyond, not_or, not_lt]
      | error failure =>
        have harmless : ¬ BeginsBeyond (byte :: more) := by
          intro begins
          obtain ⟨cpt, rest, taken⟩ := exists_read_of_beginsBeyond begins
          rw [read] at taken
          cases taken
        simp only [forall_mem_cons]
        rw [ih (by omega), holdsBeyond_cons, or_iff_right harmless]
        exact and_iff_right (by decide)

theorem unicodeCptsFromUtf8_inRange (text : Bytes) :
    (∀ cpt ∈ unicodeCptsFromUtf8 text, cpt ≤ 0x10ffff) ↔ ¬ HoldsBeyond text :=
  cptsFromUtf8Loop_inRange le_rfl

end LlamaCpp.Vocab
