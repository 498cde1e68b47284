import LlamaCpp.Lib.Decimal
import LlamaCpp.Schema.Gbnf

/-!
# Rules for ranges of integers

A range is cut by the number of digits, and a range of one length by the first digit in which
its ends differ.  The largest number stands for no upper bound, also where the smallest number
but one is negated into it.
-/

set_option autoImplicit false

namespace LlamaCpp.Schema

open LlamaCpp.Peg LlamaCpp.Lib List

abbrev dash : Nat := 0x2D

def digitRange (low high : Nat) : GbnfExpr := oneOf (range' low (high + 1 - low))

def moreDigits (minDigits maxDigits : Nat) : GbnfExpr :=
  repeated (digitRange 0x30 0x39) minDigits maxDigits

def commonLength : List Nat → List Nat → Nat
  | a :: u, b :: v => if a = b then commonLength u v + 1 else 0
  | _, _ => 0

/-- A literal that is left out when it is empty. -/
def prefixed (chars : List Nat) (body : GbnfExpr) : GbnfExpr :=
  if chars = [] then body else .seq (.literal chars) body

/-- The alternatives of `uniform_range` where the ends differ first, in the digits `a` and `b`. -/
def rangeBranches (recurse : List Nat → List Nat → GbnfExpr) (a : Nat) (u : List Nat) (b : Nat)
    (v : List Nat) : List GbnfExpr :=
  let zeros := replicate u.length 0x30
  let nines := replicate u.length 0x39
  (if u = zeros then [.seq (digitRange a (b - 1)) (moreDigits u.length u.length)]
  else .seq (.literal [a]) (recurse u nines) ::
    if a < b - 1 then [.seq (digitRange (a + 1) (if v = nines then b else b - 1))
      (moreDigits u.length u.length)]
    else []) ++
  -- unless `to_reached`
  if u ≠ zeros ∧ a < b - 1 ∧ v = nines then [] else [.seq (.literal [b]) (recurse zeros v)]

def rangeFrom (recurse : List Nat → List Nat → GbnfExpr) (start stop : List Nat) : GbnfExpr :=
  let i := commonLength start stop
  match start.drop i, stop.drop i with
  | a :: u, b :: v => prefixed (start.take i)
    (if u = [] then digitRange a b else .alt (rangeBranches recurse a u b v))
  | _, _ => .literal (start.take i)

/-- `uniform_range`, which calls itself for shorter texts. -/
def uniformRangeIn : Nat → List Nat → List Nat → GbnfExpr
  | 0, _, _ => .literal []
  | depth + 1, start, stop => rangeFrom (uniformRangeIn depth) start stop

def uniformRange (start stop : List Nat) : GbnfExpr := uniformRangeIn start.length start stop

/-- The loop over the numbers of digits, with how many are left, and the last range. -/
def rangeParts : Nat → List Nat → List Nat → List GbnfExpr
  | 0, minS, maxS => [uniformRange minS maxS]
  | left + 1, minS, maxS => uniformRange minS (replicate minS.length 0x39) ::
    rangeParts left (0x31 :: replicate minS.length 0x30) maxS

/-- `build_min_max_int` for two bounds, of which neither is negative. -/
def twoBounds (minValue maxValue : Nat) : GbnfExpr :=
  .alt (rangeParts ((decimalText maxValue).length - (decimalText minValue).length)
    (decimalText minValue) (decimalText maxValue))

/-- `std::stoll` of digits. -/
abbrev stoll (digits : List Nat) : Nat := valueOf digits

theorem stoll_tail_lt {n : Nat} (large : 10 ≤ n) : stoll (decimalText n).tail < n := by
  obtain ⟨c, rest, same, lead, -, digits, -⟩ := exists_decimalText_cons large
  have value := valueOf_decimalText n
  have below := valueOf_lt digits
  have first : 1 * 10 ^ rest.length ≤ (c - 0x30) * 10 ^ rest.length := Nat.mul_le_mul_right _ (by omega)
  rw [same, valueOf_cons] at value
  rw [same, tail_cons, stoll]
  omega

/-- `build_min_max_int` for a lower bound that is not negative. -/
def lowerBound (minValue decimalsLeft : Nat) (topLevel : Bool) : GbnfExpr :=
  let lessDecimals := max (decimalsLeft - 1) 1
  let rangeStart := if topLevel then 0x31 else 0x30
  if minValue = 0 then
    if topLevel then .alt [digitRange 0x30 0x30, .seq (digitRange 0x31 0x39) (moreDigits 0 lessDecimals)]
    else moreDigits 1 decimalsLeft
  else if _small : minValue ≤ 9 then
    let c := 0x30 + minValue
    .alt ((if rangeStart < c then [.seq (digitRange rangeStart (c - 1)) (moreDigits 1 lessDecimals)]
      else []) ++ [.seq (digitRange c 0x39) (moreDigits 0 lessDecimals)])
  else
    let minS := decimalText minValue
    let len := minS.length
    let c := minS.headD 0x30
    .alt ((if 0x31 < c then [.seq (digitRange rangeStart (c - 1)) (moreDigits len lessDecimals)] else []) ++
      .seq (digitRange c c) (lowerBound (stoll minS.tail) lessDecimals false) ::
      if c < 0x39 then [.seq (digitRange (c + 1) 0x39) (moreDigits (len - 1) lessDecimals)] else [])
termination_by minValue
decreasing_by exact stoll_tail_lt (by omega)

def int64Max : Nat := 2 ^ 63 - 1

def int64Min : Int := -2 ^ 63

/-- `build_min_max_int` for a lower bound that is not negative and an upper one, which is none
when it is the largest number. -/
def nonnegBounds (minValue maxValue : Nat) : GbnfExpr :=
  if maxValue = int64Max then lowerBound minValue 16 true else twoBounds minValue maxValue

/-- `build_min_max_int` as it is called for a schema, or none when it throws; the smallest number
stands for no lower bound, and is its own negation. -/
def buildMinMaxInt (minValue maxValue : Int) : Option GbnfExpr :=
  if minValue ≠ int64Min ∧ maxValue ≠ int64Max then
    if minValue < 0 ∧ maxValue < 0 then
      some (.seq (.literal [dash]) (nonnegBounds (-maxValue).toNat (-minValue).toNat))
    else if minValue < 0 then
      some (.alt [.seq (.literal [dash]) (nonnegBounds 0 (-minValue).toNat),
        twoBounds 0 maxValue.toNat])
    else some (twoBounds minValue.toNat maxValue.toNat)
  else if minValue ≠ int64Min then
    if minValue < 0 then
      if -minValue = int64Max then none
      else some (.alt [.seq (.literal [dash]) (twoBounds 0 (-minValue).toNat),
        digitRange 0x30 0x30, .seq (digitRange 0x31 0x39) (moreDigits 0 15)])
    else some (lowerBound minValue.toNat 16 true)
  else if maxValue ≠ int64Max then
    if 0 ≤ maxValue then
      some (.alt [.seq (.literal [dash]) (.seq (digitRange 0x31 0x39) (moreDigits 0 15)),
        twoBounds 0 maxValue.toNat])
    else if maxValue = int64Min then none
    else some (.seq (.literal [dash]) (lowerBound (-maxValue).toNat 16 false))
  else none

def IsIntText (inRange : Int → Prop) (text : List Nat) : Prop :=
  ∃ n : Nat, (text = decimalText n ∧ inRange n) ∨ (text = dash :: decimalText n ∧ inRange (-n))

variable {start stop text u v : List Nat} {a b m n : Nat}

theorem generates_digit_seq {body : GbnfExpr} : Generates (.seq (digitRange a b) body) text ↔
    ∃ ch rest, text = ch :: rest ∧ a ≤ ch ∧ ch ≤ b ∧ Generates body rest := by
  rw [digitRange, generates_oneOf_seq]
  constructor
  · rintro ⟨ch, member, rest, same, more⟩
    rw [mem_range'_1] at member
    exact ⟨ch, rest, same, member.1, by omega, more⟩
  · rintro ⟨ch, rest, same, low, high, more⟩
    exact ⟨ch, by rw [mem_range'_1]; omega, rest, same, more⟩

theorem generates_moreDigits : Generates (moreDigits m n) text ↔
    IsDigits text ∧ m ≤ text.length ∧ text.length ≤ n := by
  rw [moreDigits, digitRange, generates_repeated]
  simp only [mem_range'_1]
  refine and_congr_left fun _ => forall₂_congr fun ch _ => ?_
  omega

theorem generates_prefixed {chars : List Nat} {body : GbnfExpr} :
    Generates (prefixed chars body) text ↔ ∃ rest, text = chars ++ rest ∧ Generates body rest := by
  unfold prefixed
  split_ifs with empty
  · simp [empty]
  · exact generates_literal_seq

/-- A first digit that is the same goes into the literal. -/
theorem generates_rangeFrom_cons {recurse : List Nat → List Nat → GbnfExpr} :
    Generates (rangeFrom recurse (a :: u) (a :: v)) text ↔
      ∃ rest, text = a :: rest ∧ Generates (rangeFrom recurse u v) rest := by
  unfold rangeFrom
  simp only [commonLength, if_true, drop_succ_cons]
  split
  · simp only [generates_prefixed]
    constructor
    · rintro ⟨rest, same, more⟩
      exact ⟨_, same, rest, rfl, more⟩
    · rintro ⟨_, same, rest, rfl, more⟩
      exact ⟨rest, same, more⟩
  · simp [generates_literal]

/-- A text of the same length whose value lies between those of the ends. -/
structure Between (start stop text : List Nat) : Prop where
  length : text.length = start.length
  digits : IsDigits text
  low : valueOf start ≤ valueOf text
  high : valueOf text ≤ valueOf stop

theorem between_cons (startDigits : IsDigits (a :: u)) (stopDigits : IsDigits (b :: v))
    (same : u.length = v.length) : Between (a :: u) (b :: v) text ↔ ∃ ch rest, text = ch :: rest ∧
      rest.length = u.length ∧ IsDigits text ∧ (a < ch ∨ a = ch ∧ valueOf u ≤ valueOf rest) ∧
        (ch < b ∨ ch = b ∧ valueOf rest ≤ valueOf v) := by
  constructor
  · rintro ⟨length, digits, low, high⟩
    cases text with
    | nil => cases length
    | cons ch rest =>
      rw [length_cons, length_cons, Nat.add_right_cancel_iff] at length
      exact ⟨ch, rest, rfl, length, digits, (valueOf_cons_le startDigits digits length.symm).mp low,
        (valueOf_cons_le digits stopDigits (length.trans same)).mp high⟩
  · rintro ⟨ch, rest, rfl, length, digits, low, high⟩
    exact ⟨by rw [length_cons, length_cons, length], digits,
      (valueOf_cons_le startDigits digits length.symm).mpr low,
      (valueOf_cons_le digits stopDigits (length.trans same)).mpr high⟩

theorem isDigits_cons : IsDigits (a :: u) ↔ (0x30 ≤ a ∧ a ≤ 0x39) ∧ IsDigits u := by
  simp [IsDigits]

/-- What a call for texts that are not longer than `k` has to generate. -/
def RangesUpTo (recurse : List Nat → List Nat → GbnfExpr) (k : Nat) : Prop :=
  ∀ {start stop text}, start.length ≤ k → IsDigits start → IsDigits stop →
    start.length = stop.length → valueOf start ≤ valueOf stop →
      (Generates (recurse start stop) text ↔ Between start stop text)

/-- Where the ends differ in the first digit, the digit between them leaves the others free. -/
theorem generates_rangeBranches {recurse : List Nat → List Nat → GbnfExpr}
    (right : RangesUpTo recurse u.length) (startDigits : IsDigits (a :: u))
    (stopDigits : IsDigits (b :: v)) (same : u.length = v.length) (less : a < b) :
    Generates (.alt (rangeBranches recurse a u b v)) text ↔ Between (a :: u) (b :: v) text := by
  obtain ⟨aDigit, uDigits⟩ := isDigits_cons.mp startDigits
  obtain ⟨bDigit, vDigits⟩ := isDigits_cons.mp stopDigits
  have zero := valueOf_replicate_zero u.length
  have nine := valueOf_replicate_nine u.length
  have below : ∀ {t}, IsDigits t → t.length = u.length →
      valueOf t ≤ valueOf (replicate u.length 0x39) := by
    intro t digits length
    have := valueOf_lt digits
    rw [length] at this
    omega
  have lower := fun {t} => @right u (replicate u.length 0x39) t (le_refl _) uDigits
    (isDigits_replicate _ (by omega)) (by simp) (below uDigits rfl)
  have upper := fun {t} => @right (replicate u.length 0x30) v t (by simp)
    (isDigits_replicate _ (by omega)) vDigits (by simp [same]) (by omega)
  rw [between_cons startDigits stopDigits same, generates_alt]
  simp only [rangeBranches, mem_append]
  constructor
  · rintro ⟨expr, low | high, generated⟩
    · by_cases zeros : u = replicate u.length 0x30
      · rw [if_pos zeros, mem_singleton] at low
        rw [low] at generated
        obtain ⟨ch, rest, rfl, least, most, more⟩ := generates_digit_seq.mp generated
        obtain ⟨digits, length⟩ := generates_moreDigits.mp more
        have least_ : valueOf u = 0 := (congrArg valueOf zeros).trans zero
        exact ⟨ch, rest, rfl, by omega, isDigits_cons.mpr ⟨by omega, digits⟩, by omega, by omega⟩
      · rw [if_neg zeros] at low
        rcases mem_cons.mp low with rfl | low
        · obtain ⟨rest, rfl, more⟩ := generates_literal_seq.mp generated
          obtain ⟨length, digits, least, -⟩ := lower.mp more
          exact ⟨a, rest, rfl, length, isDigits_cons.mpr ⟨aDigit, digits⟩, Or.inr ⟨rfl, least⟩,
            Or.inl less⟩
        · by_cases wide : a < b - 1
          · rw [if_pos wide, mem_singleton] at low
            rw [low] at generated
            obtain ⟨ch, rest, rfl, least, most, more⟩ := generates_digit_seq.mp generated
            obtain ⟨digits, length⟩ := generates_moreDigits.mp more
            refine ⟨ch, rest, rfl, by omega, isDigits_cons.mpr ⟨by split at most <;> omega, digits⟩,
              by omega, ?_⟩
            split at most
            · next nines =>
              have highest := below digits (by omega)
              rw [← nines] at highest
              omega
            · omega
          · rw [if_neg wide] at low
            cases low
    · split_ifs at high
      · cases high
      · rw [mem_singleton.mp high] at generated
        obtain ⟨rest, rfl, more⟩ := generates_literal_seq.mp generated
        obtain ⟨length, digits, -, most⟩ := upper.mp more
        rw [length_replicate] at length
        exact ⟨b, rest, rfl, length, isDigits_cons.mpr ⟨bDigit, digits⟩, Or.inl less,
          Or.inr ⟨rfl, most⟩⟩
  · rintro ⟨ch, rest, rfl, length, digits, low, high⟩
    obtain ⟨digit, restDigits⟩ := isDigits_cons.mp digits
    have free : Generates (moreDigits u.length u.length) rest :=
      generates_moreDigits.mpr ⟨restDigits, length.ge, length.le⟩
    have last : ch = b → Generates (.seq (.literal [b]) (recurse (replicate u.length 0x30) v))
        (ch :: rest) := by
      rintro rfl
      exact generates_literal_seq.mpr ⟨rest, rfl, upper.mpr
        ⟨by simpa using length, restDigits, by omega, by omega⟩⟩
    by_cases zeros : u = replicate u.length 0x30
    · by_cases top : ch = b
      · exact ⟨_, Or.inr (by rw [if_neg (fun all => all.1 zeros)]; exact mem_singleton_self _), last top⟩
      · refine ⟨_, Or.inl (by rw [if_pos zeros]; exact mem_singleton_self _), ?_⟩
        exact generates_digit_seq.mpr ⟨ch, rest, rfl, by omega, by omega, free⟩
    · by_cases bottom : ch = a
      · refine ⟨_, Or.inl (by rw [if_neg zeros]; exact mem_cons_self), ?_⟩
        rw [bottom]
        exact generates_literal_seq.mpr ⟨rest, rfl, lower.mpr
          ⟨length, restDigits, by omega, below restDigits length⟩⟩
      · by_cases inner : a < b - 1 ∧ (ch = b → v = replicate u.length 0x39)
        · refine ⟨_, Or.inl (by rw [if_neg zeros, if_pos inner.1]; exact mem_cons_of_mem _ mem_cons_self), ?_⟩
          refine generates_digit_seq.mpr ⟨ch, rest, rfl, by omega, ?_, free⟩
          split
          · omega
          · next other =>
            have : ch ≠ b := fun top => other (inner.2 top)
            omega
        · refine ⟨_, Or.inr ?_, last (by omega)⟩
          rw [if_neg (by tauto)]
          exact mem_singleton_self _

/-- By induction on the text: the ends agree in the first digit, or it tells them apart. -/
theorem generates_rangeFrom {recurse : List Nat → List Nat → GbnfExpr} {k : Nat}
    (right : RangesUpTo recurse k) : RangesUpTo (rangeFrom recurse) (k + 1) := by
  intro start stop text short startDigits stopDigits same ordered
  induction start generalizing stop text with
  | nil =>
    obtain rfl := length_eq_zero_iff.mp same.symm
    simp only [rangeFrom, drop_nil, generates_literal]
    constructor
    · rintro rfl
      exact ⟨rfl, startDigits, le_refl _, le_refl _⟩
    · exact fun between => length_eq_zero_iff.mp between.length
  | cons a u ih =>
    obtain ⟨b, v, rfl⟩ := exists_cons_of_length_eq_add_one same.symm
    simp only [length_cons, Nat.add_right_cancel_iff] at same short
    have aDigit := (isDigits_cons.mp startDigits).1
    rw [valueOf_cons_le startDigits stopDigits same] at ordered
    by_cases equal : a = b
    · subst equal
      have inner := fun {t} => @ih v t (by omega) startDigits.tail stopDigits.tail same (by omega)
      rw [between_cons startDigits stopDigits same, generates_rangeFrom_cons]
      constructor
      · rintro ⟨rest, rfl, more⟩
        obtain ⟨length, digits, low, high⟩ := inner.mp more
        exact ⟨a, rest, rfl, length, isDigits_cons.mpr ⟨aDigit, digits⟩, Or.inr ⟨rfl, low⟩,
          Or.inr ⟨rfl, high⟩⟩
      · rintro ⟨ch, rest, rfl, length, digits, low, high⟩
        obtain rfl : ch = a := by omega
        exact ⟨rest, rfl, inner.mpr ⟨length, digits.tail, by omega, by omega⟩⟩
    · have less : a < b := by omega
      simp only [rangeFrom, commonLength, if_neg equal, take_zero, drop_zero, prefixed, if_true]
      split_ifs with single
      · subst single
        obtain rfl := length_eq_zero_iff.mp same.symm
        rw [between_cons startDigits stopDigits rfl, digitRange, generates_oneOf]
        constructor
        · rintro ⟨ch, member, rfl⟩
          have bDigit := (isDigits_cons.mp stopDigits).1
          rw [mem_range'_1] at member
          refine ⟨ch, [], rfl, rfl, isDigits_cons.mpr ⟨by omega, startDigits.tail⟩, ?_, ?_⟩ <;> omega
        · rintro ⟨ch, rest, rfl, length, -, low, high⟩
          obtain rfl := length_eq_zero_iff.mp length
          exact ⟨ch, by rw [mem_range'_1]; omega, rfl⟩
      · exact generates_rangeBranches (fun {_ _ _} le => right (by omega)) startDigits stopDigits same less

theorem generates_uniformRange (startDigits : IsDigits start) (stopDigits : IsDigits stop)
    (same : start.length = stop.length) (ordered : valueOf start ≤ valueOf stop) :
    Generates (uniformRange start stop) text ↔ Between start stop text := by
  have all : ∀ depth, RangesUpTo (uniformRangeIn depth) depth := by
    intro depth
    induction depth with
    | zero =>
      intro start stop text short startDigits stopDigits same ordered
      obtain rfl := length_eq_zero_iff.mp (Nat.le_zero.mp short)
      obtain rfl := length_eq_zero_iff.mp same.symm
      rw [uniformRangeIn, generates_literal]
      constructor
      · rintro rfl
        exact ⟨rfl, startDigits, le_refl _, le_refl _⟩
      · exact fun between => length_eq_zero_iff.mp between.length
    | succ depth ih => exact generates_rangeFrom ih
  exact all _ (le_refl _) startDigits stopDigits same ordered

/-- The text has as many digits as the ends, between which its value lies. -/
theorem generates_decimalRange (same : (decimalText m).length = (decimalText n).length)
    (ordered : m ≤ n) : Generates (uniformRange (decimalText m) (decimalText n)) text ↔
      ∃ value, text = decimalText value ∧ m ≤ value ∧ value ≤ n := by
  have low := canonical_decimalText m
  have high := canonical_decimalText n
  rw [generates_uniformRange low.digits high.digits same (by simpa [valueOf_decimalText])]
  constructor
  · rintro ⟨length, digits, least, most⟩
    rw [valueOf_decimalText] at least most
    have shorter := length_decimalText_le most
    have longer := length_decimalText_le least
    refine ⟨_, eq_of_valueOf_eq digits (canonical_decimalText _).digits (by omega) ?_, least, most⟩
    exact (valueOf_decimalText _).symm
  · rintro ⟨value, rfl, least, most⟩
    have shorter := length_decimalText_le most
    have longer := length_decimalText_le least
    exact ⟨by omega, (canonical_decimalText _).digits, by simpa [valueOf_decimalText],
      by simpa [valueOf_decimalText]⟩

/-- By induction on how many lengths are left, each of which ends below a power of ten. -/
theorem generates_rangeParts {left : Nat}
    (lengths : (decimalText n).length = (decimalText m).length + left) (ordered : m ≤ n) :
    Generates (.alt (rangeParts left (decimalText m) (decimalText n))) text ↔
      ∃ value, text = decimalText value ∧ m ≤ value ∧ value ≤ n := by
  induction left generalizing m text with
  | zero =>
    simp only [rangeParts, generates_alt, mem_singleton, exists_eq_left]
    exact generates_decimalRange lengths.symm ordered
  | succ left ih =>
    have canonical := canonical_decimalText m
    set k := (decimalText m).length with length
    have some_ : 0 < k := length_pos_iff.mpr canonical.some_
    have nines := decimalText_nines some_
    have power := decimalText_pow k
    have below := valueOf_lt canonical.digits
    rw [valueOf_decimalText, ← length] at below
    have longer : 10 ^ k ≤ n := by
      have bound := (canonical_decimalText n).bound (by omega)
      rw [valueOf_decimalText] at bound
      exact (Nat.pow_le_pow_right (by omega) (by omega)).trans bound
    have here := @generates_decimalRange text m (10 ^ k - 1)
      (by rw [nines, length_replicate]) (by omega)
    have next := @ih text (10 ^ k) (by rw [power, length_cons, length_replicate]; omega) longer
    rw [nines] at here
    rw [power] at next
    rw [rangeParts, ← length, generates_alt] at *
    simp only [mem_cons, exists_eq_or_imp, here]
    rw [next]
    constructor
    · rintro (⟨value, rfl, least, most⟩ | ⟨value, rfl, least, most⟩)
      · exact ⟨value, rfl, least, by omega⟩
      · exact ⟨value, rfl, by omega, most⟩
    · rintro ⟨value, rfl, least, most⟩
      by_cases short : value < 10 ^ k
      · exact Or.inl ⟨value, rfl, least, by omega⟩
      · exact Or.inr ⟨value, rfl, by omega, most⟩

theorem generates_twoBounds (ordered : m ≤ n) : Generates (twoBounds m n) text ↔
    ∃ value, text = decimalText value ∧ m ≤ value ∧ value ≤ n :=
  generates_rangeParts (by have := length_decimalText_le ordered; omega) ordered

end LlamaCpp.Schema
