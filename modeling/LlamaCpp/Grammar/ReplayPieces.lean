import LlamaCpp.Grammar.ReplayStacks

/-!
# A text in pieces

A text that is laid out as UTF-8 decodes in pieces as it decodes in one, wherever the pieces
end.  Accepting the pieces as tokens, one after another, therefore leaves the stacks that
accepting the text as one string leaves, but for the empty stack after a last piece that
ends no code point.
-/

set_option autoImplicit false

namespace LlamaCpp.Grammar

open LlamaCpp.Lib List

theorem highBits_iff : ∀ c : Byte, c >>> 6 = 2 ↔ isContinuation c = true :=
  forall_byte (by decide +kernel)

theorem lookup_lead : ∀ c : Byte, isContinuation c = false →
    lookup.getD (c >>> 4).toNat 0 = (sequenceLength c : Int) :=
  forall_byte (by decide +kernel)

def joinDecoded (front : List Nat × Nat × Int) (bytes : List Byte) :
    Option (List Nat × Nat × Int) :=
  (decodeSequences bytes front.2.1 front.2.2).map fun back => (front.1 ++ back.1, back.2)

theorem decodeSequences_append (front back : List Byte) (value : Nat) (nRemain : Int) :
    decodeSequences (front ++ back) value nRemain =
      (decodeSequences front value nRemain).bind fun decoded => joinDecoded decoded back := by
  induction front generalizing value nRemain with
  | nil => simp [decodeSequences, joinDecoded]
  | cons byte front ih =>
    -- a code point that ends at this byte comes before those that follow
    have prepend : ∀ (value : Nat) (nRemain : Int),
        (decodeSequences (front ++ back) value nRemain).map (fun decoded =>
          (if nRemain = 0 then value :: decoded.1 else decoded.1, decoded.2)) =
        ((decodeSequences front value nRemain).map fun decoded =>
          (if nRemain = 0 then value :: decoded.1 else decoded.1, decoded.2)).bind
            fun decoded => joinDecoded decoded back := by
      intro value nRemain
      rw [ih]
      cases decodeSequences front value nRemain with
      | none => rfl
      | some decoded =>
        simp only [Option.bind_some, joinDecoded, Option.map_map]
        congr 1
        split
        · rfl
        · rfl
    rw [cons_append, decodeSequences, decodeSequences]
    split
    · exact prepend _ _
    · simp only
      split
      · rfl
      · exact prepend _ _

theorem decodeSequences_owed (bytes : List Byte) {n m : Nat} (reads : owedFrom n bytes = some m)
    (value : Nat) : ∃ codePoints last,
      decodeSequences bytes value n = some (codePoints, last, (m : Int)) := by
  induction bytes generalizing n value with
  | nil =>
    rw [owedFrom, Option.some.injEq] at reads
    exact ⟨[], value, by rw [decodeSequences, reads]⟩
  | cons byte rest ih =>
    rw [owedFrom, Option.bind_eq_some_iff] at reads
    obtain ⟨next, owes, reads⟩ := reads
    cases n with
    | zero =>
      rw [oweByte] at owes
      split at owes
      · cases owes
      · rename_i isLead
        rw [Option.some.injEq] at owes
        have found := lookup_lead byte (Bool.eq_false_of_not_eq_true isLead)
        have positive := sequenceLength_pos byte
        have missing : lookup.getD (byte >>> 4).toNat 0 - 1 = (next : Int) := by omega
        obtain ⟨codePoints, last, decoded⟩ :=
          ih reads (byte.toNat &&& ((1 <<< (7 - (next : Int)).toNat) - 1))
        rw [decodeSequences]
        simp only [missing, decoded]
        exact ⟨_, last, rfl⟩
    | succ n =>
      rw [oweByte] at owes
      split at owes
      · rw [Option.some.injEq] at owes
        have missing : ((n + 1 : Nat) : Int) - 1 = (next : Int) := by omega
        obtain ⟨codePoints, last, decoded⟩ := ih reads (appendBits value byte)
        rw [decodeSequences, if_pos (by omega)]
        simp only [missing, decoded]
        exact ⟨_, last, rfl⟩
      · cases owes

theorem continueSequence_owed (bytes : List Byte) {n : Nat} (reads : (owedFrom n bytes).isSome)
    (value : Nat) : ∃ continued, continueSequence bytes value n = some continued := by
  induction bytes generalizing n value with
  | nil => exact ⟨_, rfl⟩
  | cons byte rest ih =>
    cases n with
    | zero => exact ⟨_, continueSequence_skip (Int.le_refl 0) _ value⟩
    | succ n =>
      rw [owedFrom, oweByte] at reads
      split at reads
      · rename_i continues
        have missing : ((n + 1 : Nat) : Int) - 1 = (n : Int) := by omega
        rw [continueSequence, if_pos (by omega),
          if_neg (not_not.mpr ((highBits_iff byte).mpr continues)), missing]
        exact ih reads _
      · cases reads

theorem decodeSequences_continued (bytes : List Byte) {value last : Nat} {nRemain missing : Int}
    {rest : List Byte}
    (continued : continueSequence bytes value nRemain = some (rest, last, missing)) :
    decodeSequences bytes value nRemain =
      (decodeSequences rest last missing).map fun (codePoints, final) =>
        ((if 0 < nRemain ∧ missing = 0 then [last] else []) ++ codePoints, final) := by
  -- where nothing is continued all bytes are left
  have skipped : ∀ (bytes : List Byte) (value : Nat) (nRemain : Int), nRemain ≤ 0 →
      continueSequence bytes value nRemain = some (rest, last, missing) →
      rest = bytes ∧ last = value ∧ missing = nRemain := by
    intro bytes value nRemain ended result
    rw [continueSequence_skip ended] at result
    cases result
    exact ⟨rfl, rfl, rfl⟩
  induction bytes generalizing value nRemain with
  | nil =>
    cases continued
    have open_ : ¬ (0 < missing ∧ missing = 0) := by omega
    simp [open_]
  | cons byte bytes ih =>
    by_cases begun : 0 < nRemain
    · rw [continueSequence, if_pos begun] at continued
      split at continued
      · cases continued
      · rw [decodeSequences, if_pos begun]
        simp only
        by_cases ends : nRemain - 1 = 0
        · obtain ⟨sameRest, sameLast, none_⟩ := skipped _ _ _ (by omega) continued
          rw [sameRest, sameLast, none_]
          simp only [if_pos ends, if_pos (And.intro begun ends)]
          rfl
        · rw [ih continued, Option.map_map]
          have same : (0 < nRemain - 1 ∧ missing = 0) ↔ (0 < nRemain ∧ missing = 0) := by omega
          congr 1
          funext decoded
          simp only [Function.comp_apply, if_neg ends, same]
    · obtain ⟨sameRest, sameLast, same⟩ := skipped _ _ _ (by omega) continued
      rw [sameRest, sameLast, same]
      simp [begun]

theorem decodeUtf8_of_continued {src : List Byte} (partialStart : PartialUtf8)
    {continued : List Byte × Nat × Int}
    (continues : continueSequence (cStr src) partialStart.value partialStart.nRemain = some continued)
    {codePoints : List Nat} {last : Nat} {missing : Int}
    (decoded : decodeSequences (cStr src) partialStart.value partialStart.nRemain =
      some (codePoints, last, missing)) :
    decodeUtf8 src partialStart = (codePoints ++ [0], ⟨last, missing⟩) := by
  obtain ⟨rest, middle, left⟩ := continued
  have whole := decodeSequences_continued (cStr src) continues
  rw [decoded] at whole
  unfold decodeUtf8
  simp only [continues]
  cases more : decodeSequences rest middle left with
  | none =>
    rw [more] at whole
    cases whole
  | some final =>
    rw [more, Option.map_some, Option.some.injEq, Prod.mk.injEq] at whole
    obtain ⟨sameCodePoints, sameFinal⟩ := whole
    simp [continuedCodePoint, ← sameCodePoints, ← sameFinal]

def Decodes (src : List Byte) (partialStart : PartialUtf8) : Prop :=
  (decodeUtf8 src partialStart).2.nRemain ≠ -1

instance (src : List Byte) (partialStart : PartialUtf8) : Decidable (Decodes src partialStart) :=
  inferInstanceAs (Decidable ((decodeUtf8 src partialStart).2.nRemain ≠ -1))

theorem Decodes.sequences {src : List Byte} {partialStart : PartialUtf8}
    (decodes : Decodes src partialStart) : ∃ continued codePoints last missing,
      continueSequence (cStr src) partialStart.value partialStart.nRemain = some continued ∧
      decodeSequences (cStr src) partialStart.value partialStart.nRemain =
        some (codePoints, last, missing) ∧
      decodeUtf8 src partialStart = (codePoints ++ [0], ⟨last, missing⟩) := by
  unfold Decodes decodeUtf8 at decodes
  cases continues : continueSequence (cStr src) partialStart.value partialStart.nRemain with
  | none =>
    rw [continues] at decodes
    exact absurd rfl decodes
  | some continued =>
    obtain ⟨rest, middle, left⟩ := continued
    rw [continues] at decodes
    simp only at decodes
    have whole := decodeSequences_continued (cStr src) continues
    cases more : decodeSequences rest middle left with
    | none =>
      rw [more] at decodes
      exact absurd rfl decodes
    | some final =>
      rw [more] at whole
      exact ⟨_, _, _, _, rfl, whole, decodeUtf8_of_continued partialStart continues whole⟩

theorem cStr_append {front : List Byte} (plain : 0 ∉ front) (back : List Byte) :
    cStr (front ++ back) = front ++ cStr back := by
  apply takeWhile_append_of_pos
  intro byte member
  simp only [decide_eq_true_eq]
  rintro rfl
  exact plain member

theorem cStr_self {src : List Byte} (plain : 0 ∉ src) : cStr src = src := by
  have whole := cStr_append plain []
  have none_ : cStr [] = [] := rfl
  rwa [none_, append_nil] at whole

theorem continueSequence_append {front rest : List Byte} (back : List Byte) {value last : Nat}
    {nRemain missing : Int}
    (continues : continueSequence front value nRemain = some (rest, last, missing)) :
    (∃ continued, continueSequence (front ++ back) value nRemain = some continued) ∨
      continueSequence (front ++ back) value nRemain = continueSequence back last missing ∧
        decodeSequences front value nRemain = some ([], last, missing) := by
  induction front generalizing value nRemain with
  | nil =>
    cases continues
    exact Or.inr ⟨rfl, rfl⟩
  | cons byte front ih =>
    rw [continueSequence] at continues
    rw [cons_append, continueSequence]
    by_cases begun : 0 < nRemain
    · rw [if_pos begun] at continues ⊢
      split at continues
      · cases continues
      · rename_i proper
        rw [if_neg proper]
        by_cases ends : nRemain - 1 = 0
        · rw [continueSequence_skip (by omega)]
          exact Or.inl ⟨_, rfl⟩
        · rcases ih continues with through | ⟨same, none_⟩
          · exact Or.inl through
          · refine Or.inr ⟨same, ?_⟩
            rw [decodeSequences, if_pos begun]
            simp [none_, if_neg ends]
    · rw [if_neg begun]
      exact Or.inl ⟨_, rfl⟩

theorem decodeUtf8_append {front : List Byte} (plain : 0 ∉ front) (back : List Byte)
    {partialStart : PartialUtf8} (frontDecodes : Decodes front partialStart)
    (backDecodes : Decodes back (decodeUtf8 front partialStart).2) :
    codePointsOf (front ++ back) partialStart =
        codePointsOf front partialStart ++ codePointsOf back (decodeUtf8 front partialStart).2 ∧
      (decodeUtf8 (front ++ back) partialStart).2 =
        (decodeUtf8 back (decodeUtf8 front partialStart).2).2 := by
  obtain ⟨continued, codePoints, last, missing, continues, sequences, decoded⟩ :=
    frontDecodes.sequences
  rw [decoded] at backDecodes
  obtain ⟨continuedBack, more, final, left, continuesBack, sequencesBack, decodedBack⟩ :=
    backDecodes.sequences
  rw [cStr_self plain] at continues sequences
  have joined := decodeSequences_append front (cStr back) partialStart.value partialStart.nRemain
  rw [sequences, Option.bind_some, joinDecoded, sequencesBack, ← cStr_append plain] at joined
  have through : ∃ continued, continueSequence (cStr (front ++ back)) partialStart.value
      partialStart.nRemain = some continued := by
    rw [cStr_append plain]
    rcases continueSequence_append (cStr back) continues with through | ⟨same, none_⟩
    · exact through
    · rw [sequences, Option.some.injEq, Prod.mk.injEq, Prod.mk.injEq] at none_
      rw [same, ← none_.2.1, ← none_.2.2, continuesBack]
      exact ⟨_, rfl⟩
  obtain ⟨continuedAll, continuesAll⟩ := through
  have all := decodeUtf8_of_continued partialStart continuesAll joined
  unfold codePointsOf
  rw [all, decoded, decodedBack]
  simp

/-- No invalid sequence is found in the pieces when each goes on where the one before ended. -/
def PiecesDecode : PartialUtf8 → List (List Byte) → Prop
  | _, [] => True
  | partialStart, piece :: rest =>
    Decodes piece partialStart ∧ PiecesDecode (decodeUtf8 piece partialStart).2 rest

theorem decodeUtf8_nil (partialStart : PartialUtf8) : decodeUtf8 [] partialStart = ([0], partialStart) := by
  have open_ : ¬ (0 < partialStart.nRemain ∧ partialStart.nRemain = 0) := by omega
  simp [decodeUtf8, cStr, continueSequence, decodeSequences, continuedCodePoint, open_]

/-- Pieces that decode make up a text that decodes before the last piece, and the last piece
decodes behind it. -/
theorem PiecesDecode.front {front : List (List Byte)} {last : List Byte}
    {partialStart : PartialUtf8} (begins : partialStart.nRemain ≠ -1) (plain : 0 ∉ front.flatten)
    (decode : PiecesDecode partialStart (front ++ [last])) :
    Decodes front.flatten partialStart ∧
      Decodes last (decodeUtf8 front.flatten partialStart).2 := by
  induction front generalizing partialStart with
  | nil =>
    exact ⟨begins, decode.1⟩
  | cons piece front ih =>
    rw [flatten_cons, mem_append, not_or] at plain
    obtain ⟨here, rest⟩ := decode
    obtain ⟨frontDecodes, lastDecodes⟩ := ih here plain.2 rest
    have whole := (decodeUtf8_append plain.1 front.flatten here frontDecodes).2
    rw [flatten_cons, Decodes, whole]
    exact ⟨frontDecodes, lastDecodes⟩

theorem decodes_of_owed {piece : List Byte} {n owes : Nat} (value : Nat)
    (reads : owedFrom n (cStr piece) = some owes) :
    Decodes piece ⟨value, n⟩ ∧ ∃ last, (decodeUtf8 piece ⟨value, n⟩).2 = ⟨last, owes⟩ := by
  obtain ⟨codePoints, last, sequences⟩ := decodeSequences_owed (cStr piece) reads value
  have isRead : (owedFrom n (cStr piece)).isSome := by rw [reads]; rfl
  obtain ⟨continued, continues⟩ := continueSequence_owed (cStr piece) isRead value
  have decoded := decodeUtf8_of_continued ⟨value, n⟩ continues sequences
  have natural : (owes : Int) ≠ -1 := by omega
  rw [Decodes, decoded]
  exact ⟨natural, last, rfl⟩

theorem piecesDecode_of_owed {front : List (List Byte)} {last : List Byte} {n : Nat} (value : Nat)
    (plain : 0 ∉ front.flatten) (reads : (owedFrom n (front.flatten ++ cStr last)).isSome) :
    PiecesDecode ⟨value, n⟩ (front ++ [last]) := by
  induction front generalizing n value with
  | nil =>
    obtain ⟨owes, owed_⟩ := Option.isSome_iff_exists.mp reads
    exact ⟨(decodes_of_owed value owed_).1, trivial⟩
  | cons piece front ih =>
    rw [flatten_cons, mem_append, not_or] at plain
    rw [flatten_cons, append_assoc, owedFrom_append] at reads
    cases owesPiece : owedFrom n piece with
    | none =>
      rw [owesPiece] at reads
      cases reads
    | some owes =>
      rw [owesPiece] at reads
      obtain ⟨here, middle, decoded⟩ :=
        decodes_of_owed value (by rw [cStr_self plain.1, owesPiece])
      refine ⟨here, ?_⟩
      rw [decoded]
      exact ih middle plain.2 reads

def keptStacks (codePoints : List Nat) (current : Stacks) : Stacks :=
  if codePoints = [] then unfinished current else current

theorem unfinished_keptStacks (codePoints : List Nat) (current : Stacks) :
    unfinished (keptStacks codePoints current) = unfinished current := by
  unfold keptStacks
  split
  · exact unfinished_unfinished current
  · rfl

section

variable {rules : Rules} {fuel : Nat}

theorem acceptTokenStacks_kept (tokenFree : TokenFree rules) (token : Nat) (codePoints : List Nat)
    {current : Stacks} (distinct : current.Nodup) (final : Stacks) :
    acceptTokenStacks rules fuel token codePoints current [] = .done final ↔
      ∃ whole, acceptAll rules fuel codePoints current = .done whole ∧
        final = keptStacks codePoints whole := by
  rw [acceptTokenStacks_iff tokenFree token codePoints distinct]
  by_cases none_ : codePoints = []
  · simp [none_, acceptAll, keptStacks, eq_comm]
  · rw [acceptAll_unfinished none_]
    simp [keptStacks, none_]

theorem acceptAll_kept (rules : Rules) (fuel : Nat) (before chars last : List Nat) (current : Stacks) :
    (∀ whole, acceptAll rules fuel (chars ++ last) current = .done whole →
      ∃ final, acceptAll rules fuel (chars ++ last) (keptStacks before current) = .done final ∧
        keptStacks last final = keptStacks last whole) ∧
    ((∃ final, acceptAll rules fuel (chars ++ last) (keptStacks before current) = .done final) →
      ∃ whole, acceptAll rules fuel (chars ++ last) current = .done whole) := by
  by_cases none_ : chars ++ last = []
  · obtain ⟨-, lastNone⟩ := append_eq_nil_iff.mp none_
    rw [none_, lastNone]
    constructor
    · intro whole read
      cases read
      exact ⟨_, rfl, unfinished_keptStacks before current⟩
    · exact fun _ => ⟨current, rfl⟩
  · have same : acceptAll rules fuel (chars ++ last) (keptStacks before current) =
        acceptAll rules fuel (chars ++ last) current := by
      rw [← acceptAll_unfinished none_, unfinished_keptStacks, acceptAll_unfinished none_]
    rw [same]
    exact ⟨fun whole read => ⟨whole, read, rfl⟩, id⟩

def AcceptResult.andThen (result : AcceptResult) (next : GrammarState → Outcome AcceptResult) :
    Outcome AcceptResult :=
  match result with
  | .returned grammar => next grammar
  | .threw grammar message => .done (.threw grammar message)

def replayPieces (rules : Rules) (fuel : Nat) :
    List (Nat × List Byte) → GrammarState → Outcome AcceptResult
  | [], grammar => .done (.returned grammar)
  | (token, piece) :: rest, grammar =>
    (acceptToken rules fuel token piece grammar).bind fun result =>
      result.andThen (replayPieces rules fuel rest)

def textOf (pieces : List (Nat × List Byte)) : List Byte := (pieces.map Prod.snd).flatten

def EndsWith (kept : Stacks) (partialUtf8 : PartialUtf8) : AcceptResult → Prop
  | .returned grammar => kept ≠ [] ∧ grammar = ⟨kept, partialUtf8⟩
  | .threw grammar _ => kept = [] ∧ grammar.grammarStacks = []

/-- A replay and a string that is accepted end together, and with the same stacks. -/
structure Agrees (replayed : Outcome AcceptResult) (accepted : Outcome Stacks) (last : List Nat)
    (partialUtf8 : PartialUtf8) : Prop where
  ends : (∃ result, replayed = .done result) → ∃ whole, accepted = .done whole
  result : ∀ whole, accepted = .done whole → ∃ result, replayed = .done result ∧
    EndsWith (keptStacks last whole) partialUtf8 result

theorem acceptToken_eq_done (tokenFree : TokenFree rules) (token : Nat) (piece : List Byte)
    (grammar : GrammarState) (distinct : grammar.grammarStacks.Nodup) (result : AcceptResult) :
    acceptToken rules fuel token piece grammar = .done result ↔
      ∃ whole, acceptAll rules fuel (codePointsOf piece grammar.partialUtf8)
          grammar.grammarStacks = .done whole ∧
        result =
          let kept := keptStacks (codePointsOf piece grammar.partialUtf8) whole
          let state := ⟨kept, (decodeUtf8 piece grammar.partialUtf8).2⟩
          if kept = [] then .threw state (emptyStackMessage token piece) else .returned state := by
  rw [acceptToken, Outcome.bind_eq_done]
  simp only [Outcome.done.injEq]
  constructor
  · rintro ⟨kept, collected, same⟩
    obtain ⟨whole, read, isKept⟩ :=
      (acceptTokenStacks_kept tokenFree token _ distinct kept).mp collected
    rw [isKept] at same
    exact ⟨whole, read, same.symm⟩
  · rintro ⟨whole, read, same⟩
    exact ⟨_, (acceptTokenStacks_kept tokenFree token _ distinct _).mpr ⟨whole, read, rfl⟩,
      same.symm⟩

theorem keptStacks_nodup (codePoints : List Nat) {current : Stacks} (distinct : current.Nodup) :
    (keptStacks codePoints current).Nodup := by
  unfold keptStacks
  split
  · exact unfinished_nodup distinct
  · exact distinct

theorem keptStacks_nil (codePoints : List Nat) : keptStacks codePoints [] = [] := by
  unfold keptStacks
  split
  · rfl
  · rfl

theorem replayPieces_single (tokenFree : TokenFree rules) (token : Nat) (piece : List Byte)
    (grammar : GrammarState) (distinct : grammar.grammarStacks.Nodup) :
    Agrees (replayPieces rules fuel [(token, piece)] grammar)
      (acceptAll rules fuel (codePointsOf piece grammar.partialUtf8) grammar.grammarStacks)
      (codePointsOf piece grammar.partialUtf8) (decodeUtf8 piece grammar.partialUtf8).2 := by
  constructor
  · rintro ⟨result, replayed⟩
    obtain ⟨first, accepted, -⟩ := Outcome.bind_eq_done.mp replayed
    obtain ⟨whole, read, -⟩ := (acceptToken_eq_done tokenFree token piece grammar distinct first).mp accepted
    exact ⟨whole, read⟩
  · intro whole read
    have accepted := (acceptToken_eq_done tokenFree token piece grammar distinct _).mpr ⟨whole, read, rfl⟩
    rw [replayPieces, accepted]
    simp only
    split
    · rename_i none_
      exact ⟨_, rfl, none_, none_⟩
    · rename_i some_
      exact ⟨_, rfl, some_, rfl⟩

theorem replayPieces_agrees (rules : Rules) (fuel : Nat) (tokenFree : TokenFree rules)
    (front : List (Nat × List Byte)) (token : Nat) (last : List Byte) (grammar : GrammarState)
    (distinct : grammar.grammarStacks.Nodup) (begins : grammar.partialUtf8.nRemain ≠ -1)
    (plain : 0 ∉ textOf front)
    (decode : PiecesDecode grammar.partialUtf8 (front.map Prod.snd ++ [last])) :
    Agrees (replayPieces rules fuel (front ++ [(token, last)]) grammar)
      (acceptAll rules fuel (codePointsOf (textOf front ++ last) grammar.partialUtf8)
        grammar.grammarStacks)
      (codePointsOf last (decodeUtf8 (textOf front) grammar.partialUtf8).2)
      (decodeUtf8 (textOf front ++ last) grammar.partialUtf8).2 := by
  induction front generalizing grammar with
  | nil =>
    exact replayPieces_single tokenFree token last grammar distinct
  | cons first front ih =>
    obtain ⟨before, piece⟩ := first
    have split_ : textOf ((before, piece) :: front) = piece ++ textOf front := rfl
    rw [split_, mem_append, not_or] at plain
    obtain ⟨plainPiece, plainFront⟩ := plain
    obtain ⟨here, rest⟩ := decode
    -- the text behind the first piece, and the last piece behind that
    obtain ⟨frontDecodes, lastDecodes⟩ := PiecesDecode.front here plainFront rest
    obtain ⟨restCodePoints, restDecoded⟩ := decodeUtf8_append plainFront last frontDecodes lastDecodes
    have restDecodes : Decodes (textOf front ++ last) (decodeUtf8 piece grammar.partialUtf8).2 := by
      rw [Decodes, restDecoded]
      exact lastDecodes
    obtain ⟨codePoints, decoded⟩ := decodeUtf8_append plainPiece (textOf front ++ last) here restDecodes
    have frontDecoded := (decodeUtf8_append plainPiece (textOf front) here frontDecodes).2
    have step := fun kept (keptDistinct : List.Nodup kept) =>
      ih ⟨kept, (decodeUtf8 piece grammar.partialUtf8).2⟩ keptDistinct here plainFront rest
    simp only at step
    rw [split_, append_assoc, frontDecoded, codePoints, decoded, acceptAll_append]
    rw [restCodePoints] at step ⊢
    constructor
    · rintro ⟨result, replayed⟩
      obtain ⟨called, accepted, later⟩ := Outcome.bind_eq_done.mp replayed
      obtain ⟨whole, read, isCalled⟩ :=
        (acceptToken_eq_done tokenFree before piece grammar distinct called).mp accepted
      have keptDistinct := keptStacks_nodup (codePointsOf piece grammar.partialUtf8)
        (acceptAll_nodup _ distinct read)
      rw [read]
      apply (acceptAll_kept rules fuel (codePointsOf piece grammar.partialUtf8) _ _ whole).2
      simp only at isCalled
      split at isCalled
      · rename_i none_
        rw [none_]
        exact ⟨[], acceptAll_none _⟩
      · rw [isCalled] at later
        exact (step _ keptDistinct).ends ⟨result, later⟩
    · intro whole read
      obtain ⟨afterPiece, readPiece, readRest⟩ := Outcome.bind_eq_done.mp read
      have accepted := (acceptToken_eq_done tokenFree before piece grammar distinct _).mpr
        ⟨afterPiece, readPiece, rfl⟩
      have keptDistinct := keptStacks_nodup (codePointsOf piece grammar.partialUtf8)
        (acceptAll_nodup _ distinct readPiece)
      obtain ⟨final, readKept, sameKept⟩ := (acceptAll_kept rules fuel
        (codePointsOf piece grammar.partialUtf8) _ _ afterPiece).1 whole readRest
      rw [cons_append, replayPieces, accepted, ← sameKept]
      simp only
      split
      · rename_i none_
        rw [none_, acceptAll_none] at readKept
        cases readKept
        exact ⟨_, rfl, keptStacks_nil _, none_⟩
      · exact (step _ keptDistinct).result final readKept

end

end LlamaCpp.Grammar
