import LlamaCpp.Server.StringBan

/-!
# Streamed text

The text of a token goes to the stream when the text so far does not end inside a UTF-8 sequence
or in the beginning of a stop string.  What is held back goes out with a later token.  The final
response of a stream has no text, so what the last token leaves held back is lost.
-/

set_option autoImplicit false

namespace LlamaCpp.Server

open LlamaCpp.Lib List Option

/-- The byte begins a character of more than `i` bytes. -/
def startsBeyond (i : Nat) (c : UInt8) : Bool :=
  if c &&& 0xE0 = 0xC0 then decide (i < 2)
  else if c &&& 0xF0 = 0xE0 then decide (i < 3)
  else if c &&& 0xF8 = 0xF0 then decide (i < 4)
  else false

def validateUtf8 (text : Bytes) : Nat :=
  match [1, 2, 3, 4].find? fun i =>
      decide (i ≤ text.length) && startsBeyond i (text.getD (text.length - i) 0) with
  | some i => text.length - i
  | none => text.length

def findPartialStop (text stop : Bytes) : Option Nat :=
  match text.getLast? with
  | none => none
  | some last =>
    ((List.range stop.length).reverse.find? fun i =>
      stop[i]? == some last && (stop.take (i + 1)).isSuffixOf text).map fun i =>
        text.length - i - 1

/-- `std::string::find` from a position that is not past the end. -/
def findTextFrom (word text : Bytes) (fromPos : Nat) : Option Nat :=
  (findText word (text.drop fromPos)).map (· + fromPos)

/-- The search of `find_stopping_strings` for one word. -/
def stopPosition (text : Bytes) (lastTokenSize : Nat) (isFullStop : Bool) (word : Bytes) :
    Option Nat :=
  if isFullStop then findTextFrom word text (text.length - (word.length + lastTokenSize))
  else findPartialStop text word

def earlierStop (text : Bytes) (lastTokenSize : Nat) (isFullStop : Bool)
    (stop : Option (Nat × Bytes)) (word : Bytes) : Option (Nat × Bytes) :=
  match stopPosition text lastTokenSize isFullStop word, stop with
  | some pos, none => some (pos, word)
  | some pos, some best => if pos < best.1 then some (pos, word) else some best
  | none, stop => stop

/-- `find_stopping_strings`: the first position with the word that stands there. -/
def findStoppingStrings (words : List Bytes) (text : Bytes) (lastTokenSize : Nat)
    (isFullStop : Bool) : Option (Nat × Bytes) :=
  words.foldl (earlierStop text lastTokenSize isFullStop) none

/-- What `process_token` uses of a slot, with the texts given to `send_partial_response`. -/
structure TextSlot where
  generatedText : Bytes := []
  nSentText : Nat := 0
  lastGentxtSize : Nat := 0
  hasNextToken : Bool := true
  stoppedWord : Bool := false
  stoppedEos : Bool := false
  stoppedLimit : Bool := false
  truncated : Bool := false
  stoppingWord : Bytes := []
  chunks : List Bytes := []
deriving DecidableEq

/-- A token: its text, whether it ends the generation, whether the budget is used up, and whether
the context of the training is, where that is a limit. -/
structure TextPiece where
  text : Bytes
  isEog : Bool
  noBudget : Bool
  pastTrain : Bool

section

variable (words : List Bytes) (stream : Bool)

def sendText (slot : TextSlot) (textToSend : Bytes) : TextSlot :=
  { slot with
    nSentText := slot.nSentText + textToSend.length
    chunks := if stream then slot.chunks ++ [textToSend] else slot.chunks }

/-- The branch of `process_token` on a text that ends with a whole character. -/
def processComplete (slot : TextSlot) (piece : TextPiece) : TextSlot :=
  let pos := min slot.nSentText slot.generatedText.length
  let strTest := slot.generatedText.drop pos
  match findStoppingStrings words strTest piece.text.length true with
  | some (stopPos, word) =>
    let kept := slot.generatedText.take (pos + stopPos)
    let stopped := { slot with
      generatedText := kept, stoppedWord := true, stoppingWord := word, hasNextToken := false }
    sendText stream stopped (kept.drop (min slot.nSentText kept.length))
  | none =>
    if !piece.isEog && (findStoppingStrings words strTest piece.text.length false).isSome then
      sendText stream slot []
    else sendText stream slot (slot.generatedText.drop pos)

/-- The limits that `process_token` checks after the text. -/
def checkLimits (slot : TextSlot) (piece : TextPiece) : TextSlot :=
  let budget := if slot.hasNextToken && piece.noBudget then
      { slot with stoppedLimit := true, hasNextToken := false } else slot
  let eos := if piece.isEog then { budget with stoppedEos := true, hasNextToken := false }
    else budget
  if piece.pastTrain then
    { eos with truncated := true, stoppedLimit := true, hasNextToken := false }
  else eos

def processToken (slot : TextSlot) (piece : TextPiece) : TextSlot :=
  let extended := { slot with
    lastGentxtSize := slot.generatedText.length
    generatedText := slot.generatedText ++ piece.text
    hasNextToken := true }
  checkLimits
    (if validateUtf8 extended.generatedText < extended.generatedText.length then extended
      else processComplete words stream extended piece) piece

/-- The next token, which a stop string or the end of the generation rules out.  After a limit the
tokens that a buffer still holds are processed. -/
def textStep (slot : TextSlot) (piece : TextPiece) : Option TextSlot :=
  if slot.stoppedWord || slot.stoppedEos then none
  else some (processToken words stream slot piece)

/-- The `content` of `send_final_response`. -/
def finalContent (slot : TextSlot) : Bytes := if stream then [] else slot.generatedText

end

variable {text : Bytes} {size : Nat} {stop : Nat × Bytes}

theorem findPartialStop_nonempty {stop : Bytes} {pos : Nat}
    (found : findPartialStop text stop = some pos) : text ≠ [] := by
  rintro rfl
  contradiction

theorem map_fst_findStoppingStrings (words : List Bytes) (text : Bytes) (size : Nat)
    (isFullStop : Bool) : (findStoppingStrings words text size isFullStop).map Prod.fst =
      (words.filterMap (stopPosition text size isFullStop)).min? := by
  suffices kept : ∀ best : Option (Nat × Bytes),
      (words.foldl (earlierStop text size isFullStop) best).map Prod.fst =
        ((best.map Prod.fst).toList ++ words.filterMap (stopPosition text size isFullStop)).min? from
    kept none
  induction words with
  | nil => rintro (_ | best) <;> rfl
  | cons word rest ih =>
    intro best
    rw [foldl_cons, ih, filterMap_cons]
    unfold earlierStop
    rcases stopPosition text size isFullStop word with _ | pos <;> rcases best with _ | best
    · rfl
    · rfl
    · rfl
    · have least : min best.1 pos = if pos < best.1 then pos else best.1 := by
        split <;> omega
      simp only [Option.map_some, toList_some, cons_append, nil_append, min?_cons', foldl_cons, least]
      split_ifs <;> rfl

theorem exists_stopPosition {words : List Bytes} {isFullStop : Bool}
    (found : findStoppingStrings words text size isFullStop = some stop) :
    ∃ word ∈ words, stopPosition text size isFullStop word = some stop.1 := by
  have least := map_fst_findStoppingStrings words text size isFullStop
  rw [found] at least
  exact mem_filterMap.mp (min?_mem least.symm)

theorem partialStop_nonempty {words : List Bytes}
    (found : findStoppingStrings words text size false = some stop) : text ≠ [] := by
  obtain ⟨word, -, here⟩ := exists_stopPosition found
  exact findPartialStop_nonempty here

/-- The chunks are the beginning of the text, and all of it only at the end of a character. -/
structure SentPrefix (slot : TextSlot) : Prop where
  bound : slot.nSentText ≤ slot.generatedText.length
  chunks : slot.chunks.flatten = slot.generatedText.take slot.nSentText
  complete : slot.stoppedWord = false → slot.nSentText = slot.generatedText.length →
    validateUtf8 slot.generatedText = slot.generatedText.length

/-- The last token leaves nothing held back: the text does not end inside a character, and a stop
string is complete, or the generation ends by itself, or no stop string has begun. -/
def Flushes (words : List Bytes) (slot : TextSlot) (piece : TextPiece) : Prop :=
  let text := slot.generatedText ++ piece.text
  let strTest := text.drop slot.nSentText
  validateUtf8 text = text.length ∧
    ((findStoppingStrings words strTest piece.text.length true).isSome = true ∨ piece.isEog = true ∨
      findStoppingStrings words strTest piece.text.length false = none)

section

variable {words : List Bytes} {slot : TextSlot} {piece : TextPiece}

theorem validateUtf8_le (text : Bytes) : validateUtf8 text ≤ text.length := by
  unfold validateUtf8
  split <;> omega

theorem checkLimits_text (slot : TextSlot) (piece : TextPiece) :
    (checkLimits slot piece).generatedText = slot.generatedText ∧
      (checkLimits slot piece).nSentText = slot.nSentText ∧
      (checkLimits slot piece).chunks = slot.chunks ∧
      (checkLimits slot piece).stoppedWord = slot.stoppedWord := by
  unfold checkLimits
  split_ifs <;> exact ⟨rfl, rfl, rfl, rfl⟩

theorem SentPrefix.checkLimits (sent : SentPrefix slot) (piece : TextPiece) :
    SentPrefix (checkLimits slot piece) := by
  obtain ⟨text, count, chunks, word⟩ := checkLimits_text slot piece
  constructor
  · rw [text, count]
    exact sent.bound
  · rw [text, count, chunks]
    exact sent.chunks
  · rw [text, count, word]
    exact sent.complete

theorem sendText_rest (slot : TextSlot) (sent : slot.chunks.flatten = slot.generatedText.take slot.nSentText)
    (bound : slot.nSentText ≤ slot.generatedText.length) :
    (sendText true slot (slot.generatedText.drop slot.nSentText)).chunks.flatten =
        slot.generatedText ∧
      (sendText true slot (slot.generatedText.drop slot.nSentText)).nSentText =
        slot.generatedText.length := by
  constructor
  · simp [sendText, sent]
  · simp only [sendText, length_drop]
    omega

def extend (slot : TextSlot) (piece : TextPiece) : TextSlot :=
  { slot with
    lastGentxtSize := slot.generatedText.length
    generatedText := slot.generatedText ++ piece.text
    hasNextToken := true }

theorem extend_chunks (sent : SentPrefix slot) (piece : TextPiece) :
    (extend slot piece).chunks.flatten =
      (extend slot piece).generatedText.take (extend slot piece).nSentText := by
  simp [extend, sent.chunks, take_append_of_le_length sent.bound]

theorem extend_bound (sent : SentPrefix slot) (piece : TextPiece) :
    (extend slot piece).nSentText ≤ (extend slot piece).generatedText.length := by
  have := sent.bound
  simp only [extend, length_append]
  omega

theorem processComplete_cases (words : List Bytes) (piece : TextPiece)
    (unsent : slot.chunks.flatten = slot.generatedText.take slot.nSentText)
    (bound : slot.nSentText ≤ slot.generatedText.length) :
    let strTest := slot.generatedText.drop slot.nSentText
    let next := processComplete words true slot piece
    ((findStoppingStrings words strTest piece.text.length true).isSome = true ∧
        next.stoppedWord = true ∧ next.chunks.flatten = next.generatedText ∧
        next.nSentText = next.generatedText.length) ∨
      (findStoppingStrings words strTest piece.text.length true = none ∧
        next.stoppedWord = slot.stoppedWord ∧ next.generatedText = slot.generatedText ∧
        (piece.isEog = true ∨ findStoppingStrings words strTest piece.text.length false = none) ∧
        next.chunks.flatten = next.generatedText ∧ next.nSentText = next.generatedText.length) ∨
      (findStoppingStrings words strTest piece.text.length true = none ∧
        next.stoppedWord = slot.stoppedWord ∧ next.generatedText = slot.generatedText ∧
        piece.isEog = false ∧
        (findStoppingStrings words strTest piece.text.length false).isSome = true ∧
        next.chunks.flatten = slot.chunks.flatten ∧ next.nSentText = slot.nSentText) := by
  have pos : min slot.nSentText slot.generatedText.length = slot.nSentText := Nat.min_eq_left bound
  unfold processComplete
  dsimp only
  rw [pos]
  cases full : findStoppingStrings words (slot.generatedText.drop slot.nSentText)
      piece.text.length true with
  | some stop =>
    left
    have kept : slot.nSentText ≤ (slot.generatedText.take (slot.nSentText + stop.1)).length := by
      rw [length_take]
      omega
    have front : slot.chunks.flatten =
        (slot.generatedText.take (slot.nSentText + stop.1)).take slot.nSentText := by
      rw [take_take, Nat.min_eq_left (Nat.le_add_right _ _), unsent]
    dsimp only
    rw [Nat.min_eq_left kept]
    have all := sendText_rest { slot with
      generatedText := slot.generatedText.take (slot.nSentText + stop.1), stoppedWord := true,
      stoppingWord := stop.2, hasNextToken := false } front kept
    exact ⟨rfl, rfl, all.1, all.2⟩
  | none =>
    right
    split_ifs with held
    · right
      rw [Bool.and_eq_true, Bool.not_eq_true'] at held
      exact ⟨rfl, rfl, rfl, held.1, held.2, by simp [sendText], rfl⟩
    · left
      have all := sendText_rest slot unsent bound
      refine ⟨rfl, rfl, rfl, ?_, all.1, all.2⟩
      rw [Bool.and_eq_true, Bool.not_eq_true', not_and] at held
      cases eog : piece.isEog with
      | true => exact .inl rfl
      | false => exact .inr (not_isSome_iff_eq_none.mp (held eog))

theorem held_lt {text : Bytes} {sent size : Nat} (bound : sent ≤ text.length)
    (held : (findStoppingStrings words (text.drop sent) size false).isSome = true) :
    sent < text.length := by
  obtain ⟨stop, found⟩ := isSome_iff_exists.mp held
  have some := length_pos_of_ne_nil (partialStop_nonempty found)
  rw [length_drop] at some
  omega

theorem cut_sent (sent : SentPrefix slot) (going : slot.stoppedWord = false) (piece : TextPiece)
    (cut : validateUtf8 (extend slot piece).generatedText < (extend slot piece).generatedText.length) :
    SentPrefix (extend slot piece) ∧
      ((extend slot piece).chunks.flatten = (extend slot piece).generatedText ↔
        Flushes words slot piece) := by
  have unsent := extend_chunks sent piece
  have bound := extend_bound sent piece
  have short : (extend slot piece).nSentText ≠ (extend slot piece).generatedText.length := by
    intro all
    have lengths : slot.nSentText = slot.generatedText.length + piece.text.length := by
      rw [← length_append]
      exact all
    have oldAll : slot.nSentText = slot.generatedText.length := by
      have := sent.bound
      omega
    have empty : piece.text = [] := eq_nil_of_length_eq_zero (by omega)
    have old := sent.complete going oldAll
    simp only [extend, empty, append_nil] at cut
    omega
  refine ⟨⟨bound, unsent, fun _ all => absurd all short⟩, iff_of_false (fun whole => ?_) fun flushed => ?_⟩
  · have lengths := congrArg List.length (unsent.symm.trans whole)
    rw [length_take] at lengths
    omega
  · exact absurd flushed.1 (Nat.ne_of_lt cut)

theorem complete_sent (sent : SentPrefix slot) (piece : TextPiece)
    (complete : validateUtf8 (slot.generatedText ++ piece.text) =
      (slot.generatedText ++ piece.text).length) :
    SentPrefix (processComplete words true (extend slot piece) piece) ∧
      ((processComplete words true (extend slot piece) piece).chunks.flatten =
        (processComplete words true (extend slot piece) piece).generatedText ↔
        Flushes words slot piece) := by
  have unsent := extend_chunks sent piece
  have bound := extend_bound sent piece
  have all {next : TextSlot} (whole : next.chunks.flatten = next.generatedText)
      (count : next.nSentText = next.generatedText.length) :
      next.chunks.flatten = next.generatedText.take next.nSentText := by
    rw [count, take_length, whole]
  rcases processComplete_cases words piece unsent bound with
    ⟨full, stopped, whole, count⟩ | ⟨-, -, text, ends, whole, count⟩ |
      ⟨notFull, -, text, notEog, held, chunks, count⟩
  · refine ⟨⟨Nat.le_of_eq count, all whole count, fun running => ?_⟩, iff_of_true whole ?_⟩
    · rw [stopped] at running
      contradiction
    · exact ⟨complete, .inl full⟩
  · refine ⟨⟨Nat.le_of_eq count, all whole count, fun _ _ => ?_⟩, iff_of_true whole ?_⟩
    · rw [text]
      exact complete
    · exact ⟨complete, .inr ends⟩
  · have short := held_lt bound held
    refine ⟨⟨?_, ?_, fun _ everything => ?_⟩, iff_of_false (fun whole => ?_) fun flushed => ?_⟩
    · rw [count, text]
      exact bound
    · rw [chunks, text, count]
      exact unsent
    · rw [text] at everything
      omega
    · have lengths := congrArg List.length whole
      rw [chunks, text, unsent, length_take] at lengths
      omega
    · rcases flushed.2 with full | eog | nothing
      · exact absurd (notFull.symm.trans (eq_some_of_isSome full)) nofun
      · rw [eog] at notEog
        contradiction
      · exact absurd (nothing.symm.trans (eq_some_of_isSome held)) nofun

theorem processToken_sent (sent : SentPrefix slot) (going : slot.stoppedWord = false)
    (piece : TextPiece) :
    SentPrefix (processToken words true slot piece) ∧
      ((processToken words true slot piece).chunks.flatten =
        (processToken words true slot piece).generatedText ↔ Flushes words slot piece) := by
  have limits (next : TextSlot)
      (kept : SentPrefix next ∧ (next.chunks.flatten = next.generatedText ↔
        Flushes words slot piece)) :
      SentPrefix (checkLimits next piece) ∧ ((checkLimits next piece).chunks.flatten =
        (checkLimits next piece).generatedText ↔ Flushes words slot piece) := by
    obtain ⟨text, -, chunks, -⟩ := checkLimits_text next piece
    exact ⟨kept.1.checkLimits piece, by rw [text, chunks, kept.2]⟩
  have same : processToken words true slot piece = checkLimits
      (if validateUtf8 (extend slot piece).generatedText < (extend slot piece).generatedText.length
        then extend slot piece else processComplete words true (extend slot piece) piece) piece := rfl
  rw [same]
  refine limits _ ?_
  by_cases cut : validateUtf8 (extend slot piece).generatedText <
      (extend slot piece).generatedText.length
  · rw [if_pos cut]
    exact cut_sent sent going piece cut
  · rw [if_neg cut]
    exact complete_sent sent piece (Nat.le_antisymm (validateUtf8_le _) (Nat.not_lt.mp cut))

def unstreamed (slot : TextSlot) : TextSlot := { slot with chunks := [] }

theorem checkLimits_unstreamed (slot : TextSlot) (piece : TextPiece) :
    checkLimits (unstreamed slot) piece = unstreamed (checkLimits slot piece) := by
  unfold checkLimits unstreamed
  split_ifs <;> rfl

theorem processComplete_unstreamed (slot : TextSlot) (piece : TextPiece) :
    processComplete words false (unstreamed slot) piece =
      unstreamed (processComplete words true slot piece) := by
  unfold processComplete
  dsimp only [unstreamed]
  cases findStoppingStrings words (slot.generatedText.drop
      (min slot.nSentText slot.generatedText.length)) piece.text.length true with
  | some stop => rfl
  | none =>
    split_ifs <;> rfl

theorem processToken_unstreamed (slot : TextSlot) (piece : TextPiece) :
    processToken words false (unstreamed slot) piece =
      unstreamed (processToken words true slot piece) := by
  have extended : extend (unstreamed slot) piece = unstreamed (extend slot piece) := rfl
  change checkLimits (if _ then extend (unstreamed slot) piece
    else processComplete words false (extend (unstreamed slot) piece) piece) piece = _
  rw [extended, processComplete_unstreamed]
  change checkLimits (if validateUtf8 (extend slot piece).generatedText < _ then _ else _) piece =
    unstreamed (checkLimits (if _ then extend slot piece else _) piece)
  rw [← checkLimits_unstreamed, apply_ite unstreamed]
  rfl

theorem textStep_unstreamed {next : TextSlot} (stepped : textStep words true slot piece = some next) :
    textStep words false (unstreamed slot) piece = some (unstreamed next) := by
  unfold textStep at stepped
  split_ifs at stepped with stopped
  have going : ¬((unstreamed slot).stoppedWord || (unstreamed slot).stoppedEos) = true := stopped
  rw [textStep, if_neg going, processToken_unstreamed, ← some.inj stepped]

theorem foldlM_unstreamed {pieces : List TextPiece} {final : TextSlot}
    (run : pieces.foldlM (textStep words true) slot = some final) :
    pieces.foldlM (textStep words false) (unstreamed slot) = some (unstreamed final) := by
  induction pieces generalizing slot with
  | nil => exact congrArg (some ∘ unstreamed) (some.inj run)
  | cons piece rest ih =>
    obtain ⟨next, stepped, later⟩ := bind_eq_some_iff.mp run
    rw [foldlM_cons, textStep_unstreamed stepped]
    exact ih later

theorem textStep_sent {next : TextSlot} (sent : SentPrefix slot)
    (stepped : textStep words true slot piece = some next) :
    SentPrefix next ∧ (next.chunks.flatten = next.generatedText ↔ Flushes words slot piece) := by
  unfold textStep at stepped
  split_ifs at stepped with stopped
  obtain rfl := some.inj stepped
  rw [Bool.or_eq_true, not_or, Bool.not_eq_true] at stopped
  exact processToken_sent sent stopped.1 piece

theorem foldlM_sent {pieces : List TextPiece} {final : TextSlot} (sent : SentPrefix slot)
    (run : pieces.foldlM (textStep words true) slot = some final) : SentPrefix final := by
  induction pieces generalizing slot with
  | nil => exact some.inj run ▸ sent
  | cons piece rest ih =>
    obtain ⟨next, stepped, later⟩ := bind_eq_some_iff.mp run
    exact ih (textStep_sent sent stepped).1 later

/-- The chunks of a generation with the final response are the text that the generation returns
without a stream exactly when the last token flushes what was held back. -/
theorem streamed_text_iff {pieces : List TextPiece} {last : TextPiece} {before final : TextSlot}
    (run : pieces.foldlM (textStep words true) {} = some before)
    (ended : textStep words true before last = some final) :
    ∃ whole, (pieces ++ [last]).foldlM (textStep words false) {} = some whole ∧
      whole.generatedText = final.generatedText ∧
      (final.chunks.flatten ++ finalContent true final = finalContent false whole ↔
        Flushes words before last) := by
  have start : SentPrefix ({} : TextSlot) := ⟨Nat.le_refl 0, rfl, fun _ _ => rfl⟩
  refine ⟨unstreamed final, ?_, rfl, ?_⟩
  · have tail : [last].foldlM (textStep words true) before = some final := by
      rw [foldlM_cons, ended]
      rfl
    have whole : (pieces ++ [last]).foldlM (textStep words true) {} = some final := by
      rw [foldlM_append, run]
      exact tail
    exact foldlM_unstreamed whole
  · have kept := foldlM_sent start run
    rw [← (textStep_sent kept ended).2]
    simp [finalContent, unstreamed]

end

/-- "E" may begin the stop string "END" and goes out when the generation ends by itself. -/
theorem streamed_text_iff_at_eog :
    ∃ whole, [⟨[97], false, false, false⟩, ⟨[69], true, false, false⟩].foldlM
        (textStep [[69, 78, 68]] false) {} = some whole ∧
      [97, 69] = finalContent false whole := by
  have first : [⟨[97], false, false, false⟩].foldlM (textStep [[69, 78, 68]] true) {} =
      some { generatedText := [97], nSentText := 1, chunks := [[97]] } := rfl
  have second : textStep [[69, 78, 68]] true
      { generatedText := [97], nSentText := 1, chunks := [[97]] } ⟨[69], true, false, false⟩ =
      some { generatedText := [97, 69], nSentText := 2, lastGentxtSize := 1, hasNextToken := false,
             stoppedEos := true, chunks := [[97], [69]] } := rfl
  obtain ⟨whole, run, -, same⟩ := streamed_text_iff first second
  exact ⟨whole, run, same.mpr ⟨rfl, .inr (.inl rfl)⟩⟩

/-- "E" may begin the stop string "END" and is lost when the budget ends with it. -/
theorem limit_loses_text :
    ¬ ∀ (words : List Bytes) (pieces : List TextPiece) (streamed whole : TextSlot),
      pieces.foldlM (textStep words true) {} = some streamed →
      pieces.foldlM (textStep words false) {} = some whole →
      streamed.chunks.flatten ++ finalContent true streamed = finalContent false whole := by
  intro always
  have lost := always [[69, 78, 68]] [⟨[97], false, false, false⟩, ⟨[69], false, true, false⟩] _ _ rfl rfl
  revert lost
  decide

end LlamaCpp.Server
