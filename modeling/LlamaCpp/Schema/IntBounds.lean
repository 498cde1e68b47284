import LlamaCpp.Schema.IntRange

/-!
# Rules for integers with one bound

The rule follows the digits of the bound, and reads what is left of them as a number again: a
zero in front of the rest is lost, and the numbers it lets through are too short.  Sixteen digits
are the most that it is written for.
-/

set_option autoImplicit false

namespace LlamaCpp.Schema

open LlamaCpp.Peg LlamaCpp.Lib List

variable {text tail : List Nat} {c bound left m n : Nat} {top : Bool} {minValue maxValue : Int}

theorem generates_lowerBound_small (some_ : bound ≠ 0) (small : bound ≤ 9) :
    Generates (lowerBound bound left top) text ↔ ∃ ch rest, text = ch :: rest ∧ IsDigits rest ∧
      rest.length ≤ max (left - 1) 1 ∧
        ((if top then 0x31 else 0x30) ≤ ch ∧ ch < 0x30 + bound ∧ 1 ≤ rest.length ∨
          0x30 + bound ≤ ch ∧ ch ≤ 0x39) := by
  rw [lowerBound, if_neg some_, dif_pos small, generates_alt]
  simp only [mem_append, mem_ite_nil_right, mem_singleton]
  constructor
  · rintro ⟨expr, ⟨some_, rfl⟩ | rfl, generated⟩
    · obtain ⟨ch, rest, rfl, least, most, more⟩ := generates_digit_seq.mp generated
      obtain ⟨digits, length⟩ := generates_moreDigits.mp more
      exact ⟨ch, rest, rfl, digits, length.2, Or.inl ⟨least, by omega, length.1⟩⟩
    · obtain ⟨ch, rest, rfl, least, most, more⟩ := generates_digit_seq.mp generated
      obtain ⟨digits, -, length⟩ := generates_moreDigits.mp more
      exact ⟨ch, rest, rfl, digits, length, Or.inr ⟨least, most⟩⟩
  · rintro ⟨ch, rest, rfl, digits, length, ⟨least, less, more⟩ | ⟨least, most⟩⟩
    · exact ⟨_, Or.inl ⟨least.trans_lt less, rfl⟩, generates_digit_seq.mpr
        ⟨ch, rest, rfl, least, Nat.le_sub_one_of_lt less, generates_moreDigits.mpr ⟨digits, more, length⟩⟩⟩
    · exact ⟨_, Or.inr rfl, generates_digit_seq.mpr
        ⟨ch, rest, rfl, least, most, generates_moreDigits.mpr ⟨digits, Nat.zero_le _, length⟩⟩⟩

theorem generates_lowerBound_large (large : 10 ≤ bound) (digits : decimalText bound = c :: tail) :
    Generates (lowerBound bound left top) text ↔ ∃ ch rest, text = ch :: rest ∧
      (ch = c ∧ Generates (lowerBound (stoll tail) (max (left - 1) 1) false) rest ∨
        IsDigits rest ∧ rest.length ≤ max (left - 1) 1 ∧
          (0x31 < c ∧ (if top then 0x31 else 0x30) ≤ ch ∧ ch < c ∧ tail.length + 1 ≤ rest.length ∨
            c < ch ∧ ch ≤ 0x39 ∧ tail.length ≤ rest.length)) := by
  rw [lowerBound, if_neg (by omega), dif_neg (by omega)]
  simp only [digits, headD_cons, generates_alt,
    mem_append, mem_cons, mem_ite_nil_right, not_mem_nil, or_false]
  constructor
  · rintro ⟨expr, ⟨first, rfl⟩ | rfl | ⟨last, rfl⟩, generated⟩
    · obtain ⟨ch, rest, rfl, least, most, more⟩ := generates_digit_seq.mp generated
      obtain ⟨digits, length⟩ := generates_moreDigits.mp more
      exact ⟨ch, rest, rfl, Or.inr ⟨digits, length.2, Or.inl ⟨first, least, by omega, length.1⟩⟩⟩
    · obtain ⟨ch, rest, rfl, least, most, more⟩ := generates_digit_seq.mp generated
      exact ⟨ch, rest, rfl, Or.inl ⟨by omega, more⟩⟩
    · obtain ⟨ch, rest, rfl, least, most, more⟩ := generates_digit_seq.mp generated
      obtain ⟨digits, length⟩ := generates_moreDigits.mp more
      exact ⟨ch, rest, rfl, Or.inr ⟨digits, length.2, Or.inr ⟨by omega, most, length.1⟩⟩⟩
  · rintro ⟨ch, rest, rfl, ⟨rfl, more⟩ | ⟨digits, length, ⟨first, least, less, more⟩ | ⟨less, most, more⟩⟩⟩
    · exact ⟨_, Or.inr (Or.inl rfl), generates_digit_seq.mpr ⟨ch, rest, rfl, le_refl _, le_refl _, more⟩⟩
    · exact ⟨_, Or.inl ⟨first, rfl⟩, generates_digit_seq.mpr
        ⟨ch, rest, rfl, least, Nat.le_sub_one_of_lt less, generates_moreDigits.mpr ⟨digits, more, length⟩⟩⟩
    · exact ⟨_, Or.inr (Or.inr ⟨by omega, rfl⟩), generates_digit_seq.mpr
        ⟨ch, rest, rfl, less, most, generates_moreDigits.mpr ⟨digits, more, length⟩⟩⟩

theorem generates_lowerBound_zero : Generates (lowerBound 0 left false) text ↔
    IsDigits text ∧ 1 ≤ text.length ∧ text.length ≤ left := by
  rw [lowerBound]
  exact generates_moreDigits

theorem generates_lowerBound_zero_top : Generates (lowerBound 0 left true) text ↔ text = [0x30] ∨
    ∃ ch rest, text = ch :: rest ∧ 0x31 ≤ ch ∧ ch ≤ 0x39 ∧ IsDigits rest ∧
      rest.length ≤ max (left - 1) 1 := by
  rw [lowerBound]
  simp only [if_true, generates_alt, mem_cons, exists_eq_or_imp,
    generates_digit_seq, generates_moreDigits]
  refine or_congr ?_ (by simp)
  rw [digitRange, generates_oneOf]
  simp

/-- By induction on the bound: only the branch of its own first digit makes a text that is longer
than the digits left, and this digit is no zero. -/
theorem lowerBound_long (some_ : 2 ≤ left) (generated : Generates (lowerBound bound left top) text)
    (long : left < text.length) : 0x30 ∉ text.take (left - 1) := by
  induction bound using Nat.strong_induction_on generalizing left top text with
  | _ bound ih =>
    by_cases zero : bound = 0
    · subst zero
      cases top
      · have := generates_lowerBound_zero.mp generated
        omega
      · rcases generates_lowerBound_zero_top.mp generated with rfl | ⟨_, _, rfl, _, _, _, length⟩
        · simp at long
          omega
        · rw [length_cons] at long
          omega
    · by_cases small : bound ≤ 9
      · obtain ⟨_, _, rfl, _, length, _⟩ := (generates_lowerBound_small zero small).mp generated
        rw [length_cons] at long
        omega
      · have large : 10 ≤ bound := by omega
        obtain ⟨c, tail, digits, lead, -⟩ := exists_decimalText_cons large
        obtain ⟨ch, rest, rfl, ⟨rfl, more⟩ | ⟨-, length, -⟩⟩ :=
          (generates_lowerBound_large large digits).mp generated
        · rw [length_cons] at long
          obtain ⟨more_, rfl⟩ : ∃ k, left = k + 2 := ⟨left - 2, by omega⟩
          rw [show more_ + 2 - 1 = more_ + 1 by omega, take_succ_cons, mem_cons, not_or]
          refine ⟨by omega, ?_⟩
          rcases Nat.eq_zero_or_pos more_ with rfl | positive
          · simp
          · have smaller := stoll_tail_lt large
            rw [digits] at smaller
            have inner := ih _ smaller (by omega) more (by omega)
            rwa [show max (more_ + 2 - 1) 1 - 1 = more_ by omega] at inner
        · rw [length_cons] at long
          omega

/-- A zero in front of the last digit. -/
def InnerZero (n : Nat) : Prop := 0x30 ∈ (decimalText n).dropLast

theorem innerZero_iff (digits : decimalText n = c :: tail) (lead : 0x31 ≤ c) (some_ : tail ≠ []) :
    InnerZero n ↔ 0x30 ∈ tail.dropLast := by
  rw [InnerZero, digits, dropLast_cons_of_ne_nil some_, mem_cons]
  simp only [or_iff_right_iff_imp]
  omega

theorem canonical_of_no_inner_zero (digits : IsDigits tail) (some_ : tail ≠ [])
    (inner : 0x30 ∉ tail.dropLast) : Canonical tail := by
  refine ⟨digits, some_, fun zero => ?_⟩
  obtain ⟨ch, rest, rfl⟩ := exists_cons_of_ne_nil some_
  cases rest with
  | nil => rfl
  | cons d rest =>
    obtain rfl := Option.some.inj zero
    simp at inner

/-- By induction on the bound: without inner zeros the rest of its digits is the text of the number
that is read from them. -/
theorem lowerBound_sound (inner : ¬InnerZero bound)
    (generated : Generates (lowerBound bound left top) text) : IsDigits text ∧
      (decimalText bound).length ≤ text.length ∧
        (text.length = (decimalText bound).length → bound ≤ valueOf text) := by
  induction bound using Nat.strong_induction_on generalizing left top text with
  | _ bound ih =>
    by_cases zero : bound = 0
    · subst zero
      have single : (decimalText 0).length = 1 := by rw [decimalText_small (by omega)]; rfl
      cases top
      · obtain ⟨digits, some_, -⟩ := generates_lowerBound_zero.mp generated
        exact ⟨digits, by omega, fun _ => Nat.zero_le _⟩
      · rcases generates_lowerBound_zero_top.mp generated with rfl | ⟨ch, rest, rfl, least, most, digits, -⟩
        · exact ⟨by simp [IsDigits], by simp [single], fun _ => Nat.zero_le _⟩
        · exact ⟨isDigits_cons.mpr ⟨by omega, digits⟩, by rw [length_cons]; omega, fun _ => Nat.zero_le _⟩
    · by_cases small : bound ≤ 9
      · have single : (decimalText bound).length = 1 := by rw [decimalText_small small]; rfl
        obtain ⟨ch, rest, rfl, digits, -, range⟩ := (generates_lowerBound_small zero small).mp generated
        have low : 0x30 ≤ ch := by split at range <;> omega
        refine ⟨isDigits_cons.mpr ⟨by omega, digits⟩, by rw [length_cons]; omega, fun short => ?_⟩
        rw [valueOf_cons]
        rw [length_cons, single, Nat.add_eq_right] at short
        rw [short] at ⊢
        omega
      · have large : 10 ≤ bound := by omega
        obtain ⟨c, tail, digits, lead, nine, tailDigits, some_⟩ := exists_decimalText_cons large
        have value := valueOf_decimalText bound
        have allDigits := (canonical_decimalText bound).digits
        rw [digits] at value allDigits
        rw [innerZero_iff digits lead some_] at inner
        rw [digits, length_cons]
        obtain ⟨ch, rest, rfl, ⟨rfl, more⟩ | ⟨restDigits, -, range⟩⟩ :=
          (generates_lowerBound_large large digits).mp generated
        · have same := decimalText_valueOf (canonical_of_no_inner_zero tailDigits some_ inner)
          have smaller := stoll_tail_lt large
          rw [digits, tail_cons] at smaller
          obtain ⟨restDigits, longer, most⟩ := ih _ smaller (by rwa [InnerZero, same]) more
          rw [same] at longer most
          have here : IsDigits (ch :: rest) := isDigits_cons.mpr ⟨by omega, restDigits⟩
          refine ⟨here, by rw [length_cons]; omega, fun short => ?_⟩
          rw [length_cons, Nat.add_right_cancel_iff] at short
          rw [← value]
          exact (valueOf_cons_le allDigits here short.symm).mpr (Or.inr ⟨rfl, most short⟩)
        · have low : 0x30 ≤ ch := by split at range <;> omega
          have here : IsDigits (ch :: rest) := isDigits_cons.mpr ⟨by omega, restDigits⟩
          refine ⟨here, by rw [length_cons]; omega, fun short => ?_⟩
          rw [length_cons, Nat.add_right_cancel_iff] at short
          rw [← value]
          exact (valueOf_cons_le allDigits here short.symm).mpr (Or.inl (by omega))

/-- By induction on the bound: each digit of its own, but the zeros in front of what is left. -/
theorem exists_lowerBound_short (some_ : 1 ≤ left) : ∃ text,
    Generates (lowerBound bound left top) text ∧ IsDigits text ∧
      text.length ≤ (decimalText bound).length ∧
        (InnerZero bound → text.length < (decimalText bound).length) := by
  induction bound using Nat.strong_induction_on generalizing left top with
  | _ bound ih =>
    by_cases small : bound ≤ 9
    · have single := decimalText_small small
      have digits := (canonical_decimalText bound).digits
      refine ⟨decimalText bound, ?_, digits, le_refl _, by simp [InnerZero, single]⟩
      rw [single]
      by_cases zero : bound = 0
      · subst zero
        cases top
        · exact generates_lowerBound_zero.mpr ⟨by simp [IsDigits], by simp, some_⟩
        · exact generates_lowerBound_zero_top.mpr (Or.inl rfl)
      · exact (generates_lowerBound_small zero small).mpr
          ⟨_, [], rfl, by simp [IsDigits], by simp, Or.inr ⟨le_refl _, by omega⟩⟩
    · have large : 10 ≤ bound := by omega
      obtain ⟨c, tail, digits, lead, nine, tailDigits, tailSome⟩ := exists_decimalText_cons large
      have smaller := stoll_tail_lt large
      rw [digits, tail_cons] at smaller
      obtain ⟨rest, generated, restDigits, short, shorter⟩ :=
        @ih _ smaller (max (left - 1) 1) false (le_max_right _ _)
      have fits : (decimalText (stoll tail)).length ≤ tail.length :=
        length_decimalText_le_of_lt (length_pos_iff.mpr tailSome) (valueOf_lt tailDigits)
      refine ⟨c :: rest, (generates_lowerBound_large large digits).mpr
        ⟨c, rest, rfl, Or.inl ⟨rfl, generated⟩⟩, isDigits_cons.mpr ⟨by omega, restDigits⟩, ?_⟩
      rw [innerZero_iff digits lead tailSome, digits, length_cons, length_cons]
      refine ⟨by omega, fun inner => ?_⟩
      by_cases canonical : Canonical tail
      · have same := decimalText_valueOf canonical
        rw [InnerZero, same] at shorter
        have := shorter inner
        omega
      · -- the zero in front is lost when the rest is read
        obtain ⟨d, more, rfl⟩ := exists_cons_of_ne_nil tailSome
        obtain rfl : d = 0x30 := by
          by_contra other
          exact canonical (canonical_cons tailDigits other)
        have moreSome : more ≠ [] := by
          rintro rfl
          simp at inner
        have less := valueOf_lt tailDigits.tail
        have fits_ := length_decimalText_le_of_lt (length_pos_iff.mpr moreSome) less
        rw [show stoll (0x30 :: more) = valueOf more by simp [valueOf_cons]] at short
        rw [length_cons]
        omega

theorem decimalText_ne_dash : decimalText n ≠ dash :: tail := by
  intro same
  have digits := (canonical_decimalText n).digits
  rw [same] at digits
  exact absurd (digits dash mem_cons_self).1 (by decide)

theorem generates_negated (ordered : m ≤ n) :
    Generates (.seq (.literal [dash]) (twoBounds m n)) text ↔
      ∃ value, text = dash :: decimalText value ∧ m ≤ value ∧ value ≤ n := by
  simp only [generates_literal_seq, generates_twoBounds ordered]
  constructor
  · rintro ⟨rest, rfl, value, rfl, range⟩
    exact ⟨value, rfl, range⟩
  · rintro ⟨value, rfl, range⟩
    exact ⟨_, rfl, value, rfl, range⟩

def largestDigits : List Nat := [0x39, 0x32, 0x32, 0x33, 0x33, 0x37, 0x32, 0x30, 0x33, 0x36, 0x38,
  0x35, 0x34, 0x37, 0x37, 0x35, 0x38, 0x30, 0x37]

theorem decimalText_int64Max : decimalText int64Max = largestDigits := by
  have canonical : Canonical largestDigits := canonical_cons (by unfold IsDigits; decide) (by decide)
  rw [← decimalText_valueOf canonical]
  congr 1

theorem largest_not_generated : ¬Generates (lowerBound bound 16 true) largestDigits := by
  intro generated
  exact lowerBound_long (by omega) generated (by decide) (by decide)

/-- Two bounds give exactly the texts between them, unless the negation of the lower one is taken
for no bound. -/
theorem buildMinMaxInt_generates_iff (hasMin : minValue ≠ int64Min) (hasMax : maxValue ≠ int64Max)
    (ordered : minValue ≤ maxValue) :
    (∀ text, (∃ rule, buildMinMaxInt minValue maxValue = some rule ∧ Generates rule text) ↔
      IsIntText (fun v => minValue ≤ v ∧ v ≤ maxValue) text ∧ (text = [dash, 0x30] → minValue < 0)) ↔
      minValue ≠ int64Min + 1 := by
  constructor
  · rintro exact_ rfl
    obtain ⟨rule, built, generated⟩ := (exact_ (dash :: largestDigits)).mpr
      ⟨⟨int64Max, Or.inr ⟨by rw [decimalText_int64Max], by
        simp only [int64Min, int64Max] at *; omega⟩⟩, fun _ => by decide⟩
    have largest : (-(int64Min + 1)).toNat = int64Max := by decide
    rw [buildMinMaxInt, if_pos ⟨hasMin, hasMax⟩] at built
    have below : int64Min + 1 < 0 := by decide
    by_cases negative : maxValue < 0
    · rw [if_pos ⟨below, negative⟩, largest, nonnegBounds] at built
      obtain rfl := Option.some.inj built
      obtain ⟨rest, same, more⟩ := generates_literal_seq.mp generated
      obtain rfl := (cons.inj same).2
      exact largest_not_generated more
    · rw [if_neg (fun both => negative both.2), largest, nonnegBounds] at built
      obtain rfl := Option.some.inj built
      obtain ⟨option_, member, generated⟩ := generates_alt.mp generated
      rcases mem_cons.mp member with rfl | member
      · obtain ⟨rest, same, more⟩ := generates_literal_seq.mp generated
        obtain rfl := (cons.inj same).2
        exact largest_not_generated more
      · rw [mem_singleton.mp member, generates_twoBounds (Nat.zero_le _)] at generated
        obtain ⟨value, same, -⟩ := generated
        exact decimalText_ne_dash same.symm
  · intro inner text
    have bounded : (-minValue).toNat ≠ int64Max := by
      simp only [int64Min, int64Max] at *
      omega
    rw [buildMinMaxInt, if_pos ⟨hasMin, hasMax⟩]
    by_cases below : minValue < 0
    · by_cases negative : maxValue < 0
      · rw [if_pos ⟨below, negative⟩, nonnegBounds, if_neg bounded]
        simp only [Option.some.injEq, exists_eq_left', generates_negated (show
          (-maxValue).toNat ≤ (-minValue).toNat by omega)]
        constructor
        · rintro ⟨value, rfl, least, most⟩
          exact ⟨⟨value, Or.inr ⟨rfl, by omega, by omega⟩⟩, fun _ => below⟩
        · rintro ⟨⟨value, ⟨rfl, least, most⟩ | ⟨rfl, least, most⟩⟩, -⟩
          · omega
          · exact ⟨value, rfl, by omega, by omega⟩
      · rw [if_neg (fun both => negative both.2), if_pos below, nonnegBounds, if_neg bounded]
        simp only [Option.some.injEq, exists_eq_left', generates_alt, mem_cons, not_mem_nil, or_false,
          exists_eq_or_imp, exists_eq_left, generates_negated (Nat.zero_le _),
          generates_twoBounds (Nat.zero_le _)]
        constructor
        · rintro (⟨value, rfl, -, most⟩ | ⟨value, rfl, -, most⟩)
          · exact ⟨⟨value, Or.inr ⟨rfl, by omega, by omega⟩⟩, fun _ => below⟩
          · exact ⟨⟨value, Or.inl ⟨rfl, by omega, by omega⟩⟩, fun _ => below⟩
        · rintro ⟨⟨value, ⟨rfl, least, most⟩ | ⟨rfl, least, most⟩⟩, -⟩
          · exact Or.inr ⟨value, rfl, Nat.zero_le _, by omega⟩
          · exact Or.inl ⟨value, rfl, Nat.zero_le _, by omega⟩
    · rw [if_neg (fun both => below both.1), if_neg below]
      simp only [Option.some.injEq, exists_eq_left', generates_twoBounds (show
        minValue.toNat ≤ maxValue.toNat by omega)]
      constructor
      · rintro ⟨value, rfl, least, most⟩
        exact ⟨⟨value, Or.inl ⟨rfl, by omega, by omega⟩⟩, fun same => absurd same decimalText_ne_dash⟩
      · rintro ⟨⟨value, ⟨rfl, least, most⟩ | ⟨rfl, least, most⟩⟩, signed⟩
        · exact ⟨value, rfl, by omega, by omega⟩
        · obtain rfl : value = 0 := by omega
          exact absurd (signed (by rw [decimalText_small (by omega)])) below

theorem buildMinMaxInt_generates_iff_at_five :
    (∀ text, (∃ rule, buildMinMaxInt (-5) 120 = some rule ∧ Generates rule text) ↔
      IsIntText (fun v => -5 ≤ v ∧ v ≤ 120) text ∧ (text = [dash, 0x30] → (-5 : Int) < 0)) ↔
      -5 ≠ int64Min + 1 :=
  buildMinMaxInt_generates_iff (by decide) (by decide) (by decide)

theorem smallest_bound_missed :
    IsIntText (fun v => int64Min + 1 ≤ v ∧ v ≤ -1) (dash :: largestDigits) ∧
      ¬∃ rule, buildMinMaxInt (int64Min + 1) (-1) = some rule ∧
        Generates rule (dash :: largestDigits) := by
  refine ⟨⟨int64Max, Or.inr ⟨by rw [decimalText_int64Max], by decide, by decide⟩⟩, ?_⟩
  rintro ⟨rule, built, generated⟩
  obtain rfl := Option.some.inj built
  obtain ⟨rest, same, more⟩ := generates_literal_seq.mp generated
  obtain rfl := (cons.inj same).2
  exact largest_not_generated more

/-- The texts of the rule are integers in a range. -/
def Sound (built : Option GbnfExpr) (inRange : Int → Prop) : Prop :=
  ∀ rule text, built = some rule → Generates rule text → IsIntText inRange text

/-- A number from ten on without inner zeros, for which no first digit is put in front of as many
digits as it has. -/
def KeepsUpperBound (n : Nat) : Prop := 10 ≤ n ∧ ¬InnerZero n ∧
  ((decimalText n).head? = some 0x31 ∨ 16 ≤ (decimalText n).length)

theorem lowerBound_value (inner : ¬InnerZero bound)
    (generated : Generates (lowerBound bound left top) text) (canonical : Canonical text) :
    text = decimalText (valueOf text) ∧ bound ≤ valueOf text := by
  have same := decimalText_valueOf canonical
  obtain ⟨-, longer, least⟩ := lowerBound_sound inner generated
  refine ⟨same.symm, ?_⟩
  by_cases equal : text.length = (decimalText bound).length
  · exact least equal
  · exact (lt_of_length_lt (by rw [same]; omega)).le

theorem lowerBound_top_canonical (generated : Generates (lowerBound bound left true) text)
    (digits : IsDigits text) : Canonical text := by
  by_cases zero : bound = 0
  · subst zero
    rcases generates_lowerBound_zero_top.mp generated with rfl | ⟨ch, rest, rfl, least, -⟩
    · exact decimalText_small (Nat.zero_le 9) ▸ canonical_decimalText 0
    · exact canonical_cons digits (by omega)
  · by_cases small : bound ≤ 9
    · obtain ⟨ch, rest, rfl, -, -, range⟩ := (generates_lowerBound_small zero small).mp generated
      rw [if_pos rfl] at range
      exact canonical_cons digits (by omega)
    · obtain ⟨c, tail, text_, lead, -⟩ := exists_decimalText_cons (show 10 ≤ bound by omega)
      obtain ⟨ch, rest, rfl, range⟩ := (generates_lowerBound_large (by omega) text_).mp generated
      rw [if_pos rfl] at range
      exact canonical_cons digits (by omega)

/-- A zero comes first only in front of at least as many digits as the bound has. -/
theorem lowerBound_canonical (keeps : KeepsUpperBound bound)
    (generated : Generates (lowerBound bound 16 false) text) : Canonical text := by
  obtain ⟨large, inner, first⟩ := keeps
  obtain ⟨c, tail, text_, lead, -⟩ := exists_decimalText_cons large
  obtain ⟨digits, -⟩ := lowerBound_sound inner generated
  obtain ⟨ch, rest, rfl, range⟩ := (generates_lowerBound_large large text_).mp generated
  rw [text_, head?_cons, Option.some.injEq, length_cons] at first
  exact canonical_cons digits (by omega)

theorem isIntText_digits {inRange : Int → Prop} (digits : IsDigits text) :
    IsIntText inRange text ↔ ∃ n : Nat, text = decimalText n ∧ inRange n := by
  refine exists_congr fun n => or_iff_left ?_
  rintro ⟨rfl, -⟩
  exact absurd (digits dash mem_cons_self).1 (by decide)

theorem isIntText_dash {inRange : Int → Prop} :
    IsIntText inRange (dash :: text) ↔ ∃ n : Nat, text = decimalText n ∧ inRange (-n) := by
  simp [IsIntText, decimalText_ne_dash.symm]

theorem sound_lowerBound_iff : Sound (some (lowerBound bound 16 true)) ((bound : Int) ≤ ·) ↔
    ¬InnerZero bound := by
  constructor
  · intro sound inner
    obtain ⟨text, generated, digits, -, short⟩ :=
      @exists_lowerBound_short bound 16 true (by omega)
    obtain ⟨n, rfl, least⟩ := (isIntText_digits digits).mp (sound _ _ rfl generated)
    have := length_decimalText_le (show bound ≤ n by omega)
    have := short inner
    omega
  · rintro inner rule text built generated
    obtain rfl := Option.some.inj built
    have digits := (lowerBound_sound inner generated).1
    obtain ⟨same, least⟩ := lowerBound_value inner generated (lowerBound_top_canonical generated digits)
    exact ⟨valueOf text, Or.inl ⟨same, by omega⟩⟩

theorem sound_upperBound_iff (some_ : bound ≠ 0) :
    Sound (some (.seq (.literal [dash]) (lowerBound bound 16 false))) (· ≤ -(bound : Int)) ↔
      KeepsUpperBound bound := by
  constructor
  · intro sound
    have each : ∀ {t}, Generates (lowerBound bound 16 false) t →
        ∃ n : Nat, t = decimalText n ∧ (-(n : Int)) ≤ -bound := fun generated =>
      isIntText_dash.mp (sound _ _ rfl (generates_literal_seq.mpr ⟨_, rfl, generated⟩))
    -- a text that begins with a superfluous zero
    have noZero : ∀ {rest}, Generates (lowerBound bound 16 false) (0x30 :: rest) → rest = [] := by
      intro rest generated
      obtain ⟨n, same, -⟩ := each generated
      have canonical := canonical_decimalText n
      rw [← same] at canonical
      simpa using canonical.lead rfl
    have large : 10 ≤ bound := by
      by_contra small
      refine cons_ne_nil 0x30 [] (noZero ((generates_lowerBound_small some_ (by omega)).mpr
        ⟨0x30, [0x30], rfl, by simp [IsDigits], by simp, Or.inl ⟨by simp, by omega, le_refl _⟩⟩))
    refine ⟨large, fun inner => ?_, ?_⟩
    · obtain ⟨text, generated, digits, -, short⟩ :=
        @exists_lowerBound_short bound 16 false (by omega)
      obtain ⟨n, rfl, least⟩ := each generated
      have := length_decimalText_le (show bound ≤ n by omega)
      have := short inner
      omega
    · obtain ⟨c, tail, text_, lead, -⟩ := exists_decimalText_cons large
      rw [text_, head?_cons, Option.some.injEq, length_cons]
      by_contra neither
      have generated : Generates (lowerBound bound 16 false) _ := (generates_lowerBound_large large text_).mpr
        ⟨0x30, replicate (tail.length + 1) 0x30, rfl, Or.inr ⟨isDigits_replicate _ (by omega), by simp; omega,
          Or.inl ⟨by omega, by simp, by omega, by simp⟩⟩⟩
      simpa using noZero generated
  · rintro keeps rule text built generated
    obtain rfl := Option.some.inj built
    obtain ⟨rest, rfl, more⟩ := generates_literal_seq.mp generated
    obtain ⟨same, least⟩ := lowerBound_value keeps.2.1 more (lowerBound_canonical keeps more)
    exact isIntText_dash.mpr ⟨valueOf rest, same, by omega⟩

theorem generates_positive (generated : Generates (.seq (digitRange 0x31 0x39) (moreDigits 0 15)) text) :
    ∃ n, text = decimalText n := by
  obtain ⟨ch, rest, rfl, least, most, more⟩ := generates_digit_seq.mp generated
  have digits := isDigits_cons.mpr ⟨⟨by omega, most⟩, (generates_moreDigits.mp more).1⟩
  exact canonical_iff.mp (canonical_cons digits (by omega))

/-- With one bound every text keeps it exactly when the bound has no inner zero and, if it is an
upper one, no zero is put in front of it. -/
theorem oneBound_sound_iff (bound : Int) :
    (Sound (buildMinMaxInt bound int64Max) (bound ≤ ·) ↔ bound < 0 ∨ ¬InnerZero bound.toNat) ∧
      (Sound (buildMinMaxInt int64Min bound) (· ≤ bound) ↔
        0 ≤ bound ∨ bound = int64Min ∨ KeepsUpperBound (-bound).toNat) := by
  constructor
  · rw [buildMinMaxInt, if_neg (by simp)]
    by_cases hasMin : bound = int64Min
    · rw [if_neg (not_not.mpr hasMin)]
      exact iff_of_true nofun (Or.inl (hasMin ▸ by decide))
    rw [if_pos hasMin]
    by_cases negative : bound < 0
    · refine iff_of_true ?_ (Or.inl negative)
      split_ifs
      · exact nofun
      · rintro rule text built generated
        obtain rfl := Option.some.inj built
        obtain ⟨option_, member, generated⟩ := generates_alt.mp generated
        simp only [mem_cons, not_mem_nil, or_false] at member
        rcases member with rfl | rfl | rfl
        · obtain ⟨value, rfl, -, most⟩ := (generates_negated (Nat.zero_le _)).mp generated
          exact ⟨value, Or.inr ⟨rfl, by omega⟩⟩
        · obtain ⟨ch, member, rfl⟩ := generates_oneOf.mp generated
          rw [mem_range'_1] at member
          obtain rfl : ch = 0x30 := by omega
          exact ⟨0, Or.inl ⟨by rw [decimalText_small (by omega)], by omega⟩⟩
        · obtain ⟨value, rfl⟩ := generates_positive generated
          exact ⟨value, Or.inl ⟨rfl, by omega⟩⟩
    · rw [if_neg negative, or_iff_right negative, ← sound_lowerBound_iff, Int.toNat_of_nonneg (by omega)]
  · rw [buildMinMaxInt, if_neg (by simp), if_neg (by simp)]
    by_cases hasMax : bound = int64Max
    · rw [if_neg (not_not.mpr hasMax)]
      exact iff_of_true nofun (Or.inl (hasMax ▸ by decide))
    rw [if_pos hasMax]
    by_cases positive : 0 ≤ bound
    · refine iff_of_true ?_ (Or.inl positive)
      rw [if_pos positive]
      rintro rule text built generated
      obtain rfl := Option.some.inj built
      obtain ⟨option_, member, generated⟩ := generates_alt.mp generated
      rcases mem_cons.mp member with rfl | member
      · obtain ⟨rest, rfl, more⟩ := generates_literal_seq.mp generated
        obtain ⟨value, rfl⟩ := generates_positive more
        exact ⟨value, Or.inr ⟨rfl, by omega⟩⟩
      · rw [mem_singleton.mp member, generates_twoBounds (Nat.zero_le _)] at generated
        obtain ⟨value, rfl, -, most⟩ := generated
        exact ⟨value, Or.inl ⟨rfl, by omega⟩⟩
    · rw [if_neg positive, or_iff_right positive]
      by_cases smallest : bound = int64Min
      · rw [if_pos smallest]
        exact iff_of_true nofun (Or.inl smallest)
      · rw [if_neg smallest, or_iff_right smallest, ← sound_upperBound_iff (by omega),
          Int.toNat_of_nonneg (by omega), neg_neg]

/-- The zero of 105 is lost. -/
theorem lowerBound_loses_zero : ∃ rule, buildMinMaxInt 105 int64Max = some rule ∧
    Generates rule [0x31, 0x35] ∧ ¬IsIntText (105 ≤ ·) [0x31, 0x35] := by
  have digits : IsDigits [0x31, 0x35] := by unfold IsDigits; decide
  have text_ : decimalText 105 = [0x31, 0x30, 0x35] := by simp [decimalText]
  refine ⟨lowerBound 105 16 true, rfl, ?_, ?_⟩
  · have five : Generates (lowerBound 5 15 false) [0x35] :=
      (generates_lowerBound_small (by omega) (by omega)).mpr
        ⟨_, [], rfl, by simp [IsDigits], by simp, Or.inr (by omega)⟩
    exact (generates_lowerBound_large (by omega) text_).mpr ⟨_, _, rfl, Or.inl ⟨rfl, five⟩⟩
  · rw [isIntText_digits digits]
    rintro ⟨n, same, least⟩
    have value := congrArg valueOf same
    rw [valueOf_decimalText] at value
    change 15 = n at value
    omega

end LlamaCpp.Schema
