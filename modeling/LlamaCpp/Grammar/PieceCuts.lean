import LlamaCpp.Grammar.ReplayPieces

/-!
# Where a text may be cut

A piece is checked for continuation bytes only where it goes on with a sequence that has
begun, and an invalid byte takes back the code points of its own piece only.  So a text
decodes alike under every cut exactly when it is laid out as UTF-8, up to its end, or when
it has continuation bytes only, which no piece can begin with.
-/

set_option autoImplicit false

namespace LlamaCpp.Grammar

open LlamaCpp.Lib List Option

def decodePieces : PartialUtf8 → List (List Byte) → List Nat × PartialUtf8
  | partialStart, [] => ([], partialStart)
  | partialStart, piece :: rest =>
    let later := decodePieces (decodeUtf8 piece partialStart).2 rest
    (codePointsOf piece partialStart ++ later.1, later.2)

def DecodesAlike (src : List Byte) (pieces : List (List Byte)) : Prop :=
  decodePieces ⟨0, 0⟩ pieces = (codePointsOf src ⟨0, 0⟩, (decodeUtf8 src ⟨0, 0⟩).2)

theorem decodePieces_owed (pieces : List (List Byte)) {n : Nat} (value : Nat)
    (plain : 0 ∉ pieces.flatten) (reads : (owedFrom n pieces.flatten).isSome) :
    decodePieces ⟨value, n⟩ pieces =
      (codePointsOf pieces.flatten ⟨value, n⟩, (decodeUtf8 pieces.flatten ⟨value, n⟩).2) := by
  induction pieces generalizing n value with
  | nil =>
    rw [flatten_nil, codePointsOf, decodeUtf8_nil]
    rfl
  | cons piece rest ih =>
    rw [flatten_cons, mem_append, not_or] at plain
    rw [flatten_cons, owedFrom_append] at reads
    cases owesPiece : owedFrom n piece with
    | none =>
      rw [owesPiece] at reads
      cases reads
    | some owes =>
      rw [owesPiece, bind_some] at reads
      obtain ⟨final, owesRest⟩ := isSome_iff_exists.mp reads
      obtain ⟨here, middle, state⟩ :=
        decodes_of_owed value (by rw [cStr_self plain.1, owesPiece])
      obtain ⟨later, -⟩ := decodes_of_owed middle (by rw [cStr_self plain.2, owesRest])
      rw [← state] at later
      obtain ⟨codePoints, last⟩ := decodeUtf8_append plain.1 rest.flatten here later
      rw [flatten_cons, codePoints, last, decodePieces, state, ih middle plain.2 reads]

theorem lookup_stray : ∀ c : Byte, isContinuation c = true →
    lookup.getD (c >>> 4).toNat 0 = 0 ∧ c ≠ 0 :=
  forall_byte (by decide +kernel)

theorem cStr_cons {byte : Byte} (plain : byte ≠ 0) (rest : List Byte) :
    cStr (byte :: rest) = byte :: cStr rest :=
  takeWhile_cons_of_pos (decide_eq_true plain)

variable {partialStart : PartialUtf8} {n : Int} {c : Byte}

theorem decodeUtf8_ended (ended : partialStart.nRemain ≤ 0) (src : List Byte) :
    decodeUtf8 src partialStart =
      match decodeSequences (cStr src) partialStart.value partialStart.nRemain with
      | none => ([0], ⟨0, -1⟩)
      | some (codePoints, last, missing) => (codePoints ++ [0], ⟨last, missing⟩) := by
  have open_ : ¬ 0 < partialStart.nRemain := not_lt.mpr ended
  unfold decodeUtf8
  rw [continueSequence_skip ended]
  dsimp only
  cases decodeSequences (cStr src) partialStart.value partialStart.nRemain with
  | none => rfl
  | some decoded =>
    dsimp only
    rw [continuedCodePoint, if_neg fun goesOn => open_ goesOn.1, nil_append]

theorem decodeSequences_restart {n' : Int} (ended : n ≤ 0) (ended' : n' ≤ 0) (value value' : Nat)
    {bytes : List Byte} (nonempty : bytes ≠ []) :
    decodeSequences bytes value n = decodeSequences bytes value' n' := by
  cases bytes with
  | nil => exact absurd rfl nonempty
  | cons byte rest =>
    rw [decodeSequences, decodeSequences, if_neg (not_lt.mpr ended), if_neg (not_lt.mpr ended')]

theorem decodeSequences_stray (stray : isContinuation c = true) (rest : List Byte) (value : Nat)
    (ended : n ≤ 0) : decodeSequences (c :: rest) value n = none := by
  rw [decodeSequences, if_neg (not_lt.mpr ended), (lookup_stray c stray).1]
  rfl

theorem decodeUtf8_stray (ended : partialStart.nRemain ≤ 0) (stray : isContinuation c = true)
    (rest : List Byte) : decodeUtf8 (c :: rest) partialStart = ([0], ⟨0, -1⟩) := by
  rw [decodeUtf8_ended ended, cStr_cons (lookup_stray c stray).2,
    decodeSequences_stray stray _ _ ended]

theorem decodeUtf8_broken (begun : 0 < partialStart.nRemain) (lead : isContinuation c = false)
    (plain : c ≠ 0) (rest : List Byte) : decodeUtf8 (c :: rest) partialStart = ([0], ⟨0, -1⟩) := by
  have off : c >>> 6 ≠ 2 := fun same => by
    rw [(highBits_iff c).mp same] at lead
    cases lead
  rw [decodeUtf8, cStr_cons plain, continueSequence, if_pos begun, if_pos off]

theorem decodeSequences_nonneg {bytes : List Byte} {value last : Nat} {missing : Int}
    {codePoints : List Nat} (begins : 0 ≤ n)
    (decoded : decodeSequences bytes value n = some (codePoints, last, missing)) : 0 ≤ missing := by
  induction bytes generalizing value n codePoints with
  | nil =>
    cases decoded
    exact begins
  | cons byte rest ih =>
    rw [decodeSequences] at decoded
    split at decoded
    · obtain ⟨⟨more, final⟩, inner, same⟩ := map_eq_some_iff.mp decoded
      obtain rfl : final = (last, missing) := (Prod.mk.inj same).2
      exact ih (by omega) inner
    · simp only at decoded
      split at decoded
      · cases decoded
      · obtain ⟨⟨more, final⟩, inner, same⟩ := map_eq_some_iff.mp decoded
        obtain rfl : final = (last, missing) := (Prod.mk.inj same).2
        exact ih (by omega) inner

theorem exists_stray {bytes : List Byte} {value : Nat} (begins : 0 ≤ n)
    (none_ : decodeSequences bytes value n = none) :
    ∃ front c back, bytes = front ++ c :: back ∧ isContinuation c = true ∧
      ∃ codePoints last, decodeSequences front value n = some (codePoints, last, 0) := by
  induction bytes generalizing value n with
  | nil => cases none_
  | cons byte rest ih =>
    rw [decodeSequences] at none_
    split at none_
    · rename_i begun
      obtain ⟨front, c, back, same, stray, codePoints, last, decoded⟩ :=
        ih (by omega) (map_eq_none_iff.mp none_)
      refine ⟨byte :: front, c, back, by rw [same]; rfl, stray, ?_⟩
      rw [decodeSequences, if_pos begun]
      simp only [decoded]
      exact ⟨_, last, rfl⟩
    · rename_i ended
      simp only at none_
      split at none_
      · have stray : isContinuation byte = true := by
          by_contra lead
          have found := lookup_lead byte (Bool.eq_false_of_not_eq_true lead)
          have positive := sequenceLength_pos byte
          omega
        have zero : n = 0 := by omega
        exact ⟨[], byte, rest, rfl, stray, [], value, by rw [decodeSequences, zero]⟩
      · rename_i valid
        obtain ⟨front, c, back, same, stray, codePoints, last, decoded⟩ :=
          ih (by omega) (map_eq_none_iff.mp none_)
        refine ⟨byte :: front, c, back, by rw [same]; rfl, stray, ?_⟩
        rw [decodeSequences, if_neg ended]
        simp only [if_neg valid, decoded]
        exact ⟨_, last, rfl⟩

theorem exists_ill {n : Nat} {bytes : List Byte} (none_ : owedFrom n bytes = none) :
    ∃ front c back m, bytes = front ++ c :: back ∧ owedFrom n front = some m ∧
      oweByte m c = none := by
  induction bytes generalizing n with
  | nil => cases none_
  | cons byte rest ih =>
    rw [owedFrom] at none_
    cases owes : oweByte n byte with
    | none => exact ⟨[], byte, rest, n, rfl, rfl, owes⟩
    | some next =>
      rw [owes] at none_
      obtain ⟨front, c, back, m, same, reads, ill⟩ := ih none_
      exact ⟨byte :: front, c, back, m, by rw [same]; rfl, by rw [owedFrom, owes]; exact reads,
        ill⟩

theorem decodeUtf8_strays {bytes : List Byte} (strays : ∀ c ∈ bytes, isContinuation c = true)
    {start : PartialUtf8} (ended : start.nRemain ≤ 0) :
    decodeUtf8 bytes start = ([0], if bytes = [] then start else ⟨0, -1⟩) := by
  cases bytes with
  | nil => exact decodeUtf8_nil start
  | cons c rest => exact decodeUtf8_stray ended (strays c mem_cons_self) rest

theorem decodePieces_strays (pieces : List (List Byte))
    (strays : ∀ c ∈ pieces.flatten, isContinuation c = true) {start : PartialUtf8}
    (ended : start.nRemain ≤ 0) :
    decodePieces start pieces = ([], if pieces.flatten = [] then start else ⟨0, -1⟩) := by
  induction pieces generalizing start with
  | nil => rfl
  | cons piece rest ih =>
    simp only [flatten_cons, mem_append] at strays
    have here := decodeUtf8_strays (fun c member => strays c (Or.inl member)) ended
    have next : (decodeUtf8 piece start).2.nRemain ≤ 0 := by
      rw [here]
      split
      · exact ended
      · exact (by decide : (-1 : Int) ≤ 0)
    rw [decodePieces, ih (fun c member => strays c (Or.inr member)) next, codePointsOf, here]
    by_cases none_ : piece = []
    · simp [none_]
    · simp [none_]

section

variable {bytes : List Byte} (plain : 0 ∉ bytes)

include plain

theorem decodeUtf8_nonneg (nonempty : bytes ≠ []) (decodes : (decodeSequences bytes 0 0).isSome)
    {start : PartialUtf8} (ended : start.nRemain ≤ 0) : 0 ≤ (decodeUtf8 bytes start).2.nRemain := by
  obtain ⟨⟨codePoints, last, missing⟩, decoded⟩ := isSome_iff_exists.mp decodes
  rw [decodeUtf8_ended ended, cStr_self plain,
    decodeSequences_restart ended (le_refl 0) start.value 0 nonempty, decoded]
  exact decodeSequences_nonneg (le_refl 0) decoded

theorem cut_before_stray (begins : ∀ c ∈ bytes.head?, isContinuation c = false)
    (none_ : decodeSequences bytes 0 0 = none) :
    ∃ front back, bytes = front ++ back ∧ ∀ start : PartialUtf8, start.nRemain ≤ 0 →
      codePointsOf front start ≠ [] := by
  obtain ⟨front, c, back, rfl, stray, codePoints, last, decoded⟩ := exists_stray (le_refl 0) none_
  refine ⟨front, c :: back, rfl, fun start ended => ?_⟩
  rw [mem_append, not_or] at plain
  cases front with
  | nil =>
    rw [begins c rfl] at stray
    cases stray
  | cons byte front =>
    rw [codePointsOf, decodeUtf8_ended ended, cStr_self plain.1,
      decodeSequences_restart ended (le_refl 0) start.value 0 (cons_ne_nil _ _), decoded]
    simp only [dropLast_concat]
    rintro rfl
    exact decodeSequences_first (le_refl 0) decoded rfl

/-- A text that decodes, but is not laid out as UTF-8, is invalid when it is cut before the byte
that breaks a sequence. -/
theorem cut_inside_sequence (none_ : owed bytes = none)
    (decodes : (decodeSequences bytes 0 0).isSome) :
    ∃ front back, bytes = front ++ back ∧
      (decodePieces ⟨0, 0⟩ [front, back]).2.nRemain = -1 := by
  obtain ⟨front, c, back, m, rfl, reads, ill⟩ := exists_ill none_
  refine ⟨front, c :: back, rfl, ?_⟩
  rw [mem_append, not_or, mem_cons, not_or] at plain
  obtain ⟨-, last, state⟩ := decodes_of_owed 0 (by rw [cStr_self plain.1, reads])
  change (decodeUtf8 (c :: back) (decodeUtf8 front ⟨0, 0⟩).2).2.nRemain = -1
  rw [show (⟨0, 0⟩ : PartialUtf8) = ⟨0, (0 : Nat)⟩ from rfl, state]
  cases m with
  | zero =>
    -- the byte would be stray, but the loops over the sequences get past it
    obtain ⟨codePoints, final, decoded⟩ := decodeSequences_owed front reads 0
    have stray : isContinuation c = true := by simpa [oweByte] using ill
    have absent : decodeSequences (c :: back) final (0 : Nat) = none :=
      decodeSequences_stray stray _ _ (le_refl _)
    rw [show (0 : Int) = (0 : Nat) from rfl, decodeSequences_append, decoded, bind_some,
      joinDecoded, absent] at decodes
    cases decodes
  | succ m =>
    have lead : isContinuation c = false := by simpa [oweByte] using ill
    rw [decodeUtf8_broken (Int.natCast_pos.mpr (Nat.succ_pos m)) lead (Ne.symm plain.2.1)]

end

/-- A text decodes alike under every cut exactly when it is laid out as UTF-8 up to its end or
has continuation bytes only. -/
theorem decodesAlike_iff (src : List Byte) (plain : 0 ∉ src) :
    (∀ pieces, pieces.flatten = src → DecodesAlike src pieces) ↔
      (owed src).isSome ∨ ∀ c ∈ src, isContinuation c = true := by
  constructor
  · intro alike
    by_contra neither
    rw [not_or] at neither
    obtain ⟨notRead, notStray⟩ := neither
    -- the stray bytes in front, and what begins with the lead byte of a sequence
    obtain ⟨strays, text, split, stray, lead, nonempty⟩ : ∃ strays text, src = strays ++ text ∧
        (∀ c ∈ strays, isContinuation c = true) ∧
        (∀ c ∈ text.head?, isContinuation c = false) ∧ text ≠ [] := by
      refine ⟨src.takeWhile isContinuation, src.dropWhile isContinuation,
        takeWhile_append_dropWhile.symm, fun c => mem_takeWhile_imp, ?_, ?_⟩
      · intro c first
        have off := List.head?_dropWhile_not isContinuation src
        rw [mem_def.mp first] at off
        simpa using off
      · intro none_
        exact notStray (dropWhile_eq_nil_iff.mp none_)
    subst src
    rw [mem_append, not_or] at plain
    have start : decodeUtf8 strays ⟨0, 0⟩ = ([0], if strays = [] then ⟨0, 0⟩ else ⟨0, -1⟩) :=
      decodeUtf8_strays stray (le_refl 0)
    have ended : (decodeUtf8 strays ⟨0, 0⟩).2.nRemain ≤ 0 := by
      rw [start]
      split <;> decide
    cases decoded : decodeSequences text 0 0 with
    | none =>
      obtain ⟨front, back, rfl, gives⟩ := cut_before_stray plain.2 lead decoded
      have whole : codePointsOf (strays ++ (front ++ back)) ⟨0, 0⟩ = [] := by
        cases strays with
        | nil =>
          rw [nil_append, codePointsOf, decodeUtf8_ended (le_refl 0), cStr_self plain.2,
            decoded]
          rfl
        | cons c strays =>
          rw [cons_append, codePointsOf,
            decodeUtf8_stray (le_refl 0) (stray c mem_cons_self)]
          rfl
      have cut := congrArg Prod.fst (alike [strays, front, back] (by simp))
      rw [whole] at cut
      simp only [decodePieces, append_eq_nil_iff] at cut
      exact gives _ ended cut.2.1
    | some final =>
      have decodes : (decodeSequences text 0 0).isSome := by rw [decoded]; rfl
      cases strays with
      | nil =>
        rw [not_isSome_iff_eq_none] at notRead
        obtain ⟨front, back, rfl, invalid⟩ := cut_inside_sequence plain.2 notRead decodes
        have cut := congrArg Prod.snd (alike [front, back] (by simp))
        have valid : 0 ≤ (decodeUtf8 (front ++ back) ⟨0, 0⟩).2.nRemain :=
          decodeUtf8_nonneg plain.2 nonempty decodes (le_refl 0)
        rw [cut] at invalid
        exact absurd (invalid ▸ valid) (by decide)
      | cons c strays =>
        have cut := congrArg Prod.snd (alike [c :: strays, text] (by simp))
        have valid := decodeUtf8_nonneg plain.2 nonempty decodes ended
        rw [cons_append, decodeUtf8_stray (le_refl 0) (stray c mem_cons_self)] at cut
        simp only [decodePieces] at cut
        rw [cut] at valid
        exact absurd valid (by decide)
  · rintro (reads | strays) pieces rfl
    · exact decodePieces_owed pieces 0 plain reads
    · rw [DecodesAlike, decodePieces_strays pieces strays (le_refl 0), codePointsOf,
        decodeUtf8_strays strays (le_refl 0)]
      rfl

/-- A character that is cut, before the lead byte of another one. -/
theorem decodesAlike_at_cutCharacter :
    DecodesAlike [0xC3, 0xA9, 0xE2] [[0xC3], [0xA9, 0xE2]] :=
  (decodesAlike_iff [0xC3, 0xA9, 0xE2] (by decide)).mpr (Or.inl (by decide)) _ rfl

/-- The letter after a lead byte goes into its code point in one piece and is invalid in two. -/
theorem letter_after_lead_differs :
    ¬ ∀ src : List Byte, 0 ∉ src → ∀ pieces, pieces.flatten = src → DecodesAlike src pieces := by
  intro claimed
  have alike := claimed [0xC3, 0x41] (by decide) [[0xC3], [0x41]] rfl
  have differs : (decodePieces ⟨0, 0⟩ [[0xC3], [0x41]]).2.nRemain ≠
      (decodeUtf8 [0xC3, 0x41] ⟨0, 0⟩).2.nRemain := by decide
  rw [alike] at differs
  exact differs rfl

end LlamaCpp.Grammar
