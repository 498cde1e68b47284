import Mathlib.Data.List.Basic

/-!
# The layout of UTF-8

A lead byte says how many continuation bytes follow it.  `owed` reads a text and gives the
number of continuation bytes that its last code point still owes, or nothing when a byte
stands where UTF-8 cannot hold it.  Overlong forms are laid out like other forms, so every
beginning of a UTF-8 text is read.
-/

set_option autoImplicit false

namespace LlamaCpp.Lib

abbrev Byte := UInt8

theorem forall_byte {P : Byte → Prop} (each : ∀ n : Fin 256, P (UInt8.ofNat n)) (c : Byte) : P c := by
  have here := each ⟨c.toNat, c.toNat_lt⟩
  rwa [UInt8.ofNat_toNat] at here

def isContinuation (c : Byte) : Bool := c &&& 0xC0 == 0x80

def sequenceLength (lead : Byte) : Nat :=
  if 0xF0 ≤ lead then 4 else if 0xE0 ≤ lead then 3 else if 0xC0 ≤ lead then 2 else 1

theorem sequenceLength_pos (lead : Byte) : 1 ≤ sequenceLength lead := by
  unfold sequenceLength
  split_ifs <;> omega

theorem sequenceLength_le (lead : Byte) : sequenceLength lead ≤ 4 := by
  unfold sequenceLength
  split_ifs <;> omega

/-- One byte more, when `n` continuation bytes are owed. -/
def oweByte (n : Nat) (c : Byte) : Option Nat :=
  match n with
  | 0 => if isContinuation c then none else some (sequenceLength c - 1)
  | n + 1 => if isContinuation c then some n else none

def owedFrom : Nat → List Byte → Option Nat
  | n, [] => some n
  | n, c :: rest => (oweByte n c).bind fun m => owedFrom m rest

def owed (text : List Byte) : Option Nat := owedFrom 0 text

def AtBoundary (text : List Byte) : Prop := owed text = some 0

instance (text : List Byte) : Decidable (AtBoundary text) :=
  inferInstanceAs (Decidable (owed text = some 0))

theorem owedFrom_append (n : Nat) (front back : List Byte) :
    owedFrom n (front ++ back) = (owedFrom n front).bind fun m => owedFrom m back := by
  induction front generalizing n with
  | nil => rfl
  | cons c front ih =>
    rw [List.cons_append, owedFrom, owedFrom]
    cases oweByte n c with
    | none => rfl
    | some m => exact ih m

theorem owed_append (front back : List Byte) :
    owed (front ++ back) = (owed front).bind fun m => owedFrom m back :=
  owedFrom_append 0 front back

theorem owed_of_isPrefix {front text : List Byte} (isPrefix : front <+: text)
    (reads : (owed text).isSome) : (owed front).isSome := by
  obtain ⟨back, whole⟩ := isPrefix
  rw [← whole, owed_append] at reads
  cases result : owed front with
  | none => simp [result] at reads
  | some n => rfl

theorem owedFrom_continuations (n : Nat) (bytes : List Byte)
    (continues : ∀ c ∈ bytes, isContinuation c = true) (reads : (owedFrom n bytes).isSome) :
    bytes.length ≤ n ∧ owedFrom n bytes = some (n - bytes.length) := by
  induction bytes generalizing n with
  | nil => exact ⟨Nat.zero_le n, rfl⟩
  | cons c bytes ih =>
    have here := continues c (List.mem_cons_self ..)
    cases n with
    | zero => simp [owedFrom, oweByte, here] at reads
    | succ n =>
      have step : owedFrom (n + 1) (c :: bytes) = owedFrom n bytes := by
        simp [owedFrom, oweByte, here]
      rw [step] at reads ⊢
      obtain ⟨short, left⟩ := ih n (fun d member => continues d (List.mem_cons_of_mem _ member)) reads
      rw [left, List.length_cons]
      exact ⟨by omega, by congr 1; omega⟩

theorem owedFrom_lead {n : Nat} {lead : Byte} {rest : List Byte} (isLead : isContinuation lead = false)
    (reads : (owedFrom n (lead :: rest)).isSome) :
    n = 0 ∧ owedFrom n (lead :: rest) = owedFrom (sequenceLength lead - 1) rest := by
  cases n with
  | zero => exact ⟨rfl, by simp [owedFrom, oweByte, isLead]⟩
  | succ n => simp [owedFrom, oweByte, isLead] at reads

theorem exists_last_lead {bytes : List Byte} (hasLead : ∃ c ∈ bytes, isContinuation c = false) :
    ∃ front lead tail, bytes = front ++ lead :: tail ∧ isContinuation lead = false ∧
      ∀ c ∈ tail, isContinuation c = true := by
  induction bytes with
  | nil =>
    obtain ⟨c, impossible, -⟩ := hasLead
    cases impossible
  | cons b bytes ih =>
    by_cases later : ∃ c ∈ bytes, isContinuation c = false
    · obtain ⟨front, lead, tail, same, isLead, continues⟩ := ih later
      exact ⟨b :: front, lead, tail, by rw [same]; rfl, isLead, continues⟩
    · have continues : ∀ c ∈ bytes, isContinuation c = true := fun c member => by
        by_contra off
        exact later ⟨c, member, by simpa using off⟩
      obtain ⟨c, member, isLead⟩ := hasLead
      rcases List.mem_cons.mp member with here | inTail
      · exact ⟨[], b, bytes, rfl, here ▸ isLead, continues⟩
      · rw [continues c inTail] at isLead
        cases isLead

end LlamaCpp.Lib
