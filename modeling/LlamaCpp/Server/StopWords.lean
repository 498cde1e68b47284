import LlamaCpp.Server.StreamedText

/-!
# Stop words across tokens

What a token leaves unsent can still begin a stop word, and what is sent cannot, so the window
that `find_stopping_strings` searches holds the first occurrence.  The search is left out for a
token that ends inside a character, and a later window does not go back to it.
-/

set_option autoImplicit false

namespace LlamaCpp.Server

open LlamaCpp.Lib List Option

def textOf (pieces : List TextPiece) : Bytes := pieces.flatMap TextPiece.text

/-- No stop word occurs in the text. -/
def Unmatched (words : List Bytes) (text : Bytes) : Prop := ∀ word ∈ words, ¬ word <:+: text

def OccursAt (words : List Bytes) (text : Bytes) (pos : Nat) : Prop :=
  ∃ word ∈ words, word <+: text.drop pos

/-- The slot is stopped by a word, with its text cut before the earliest occurrence of one. -/
structure CutAtFirst (words : List Bytes) (text : Bytes) (slot : TextSlot) : Prop where
  stopped : slot.stoppedWord = true ∧ slot.hasNextToken = false
  cut : ∃ pos, OccursAt words text pos ∧ (∀ p < pos, ¬ OccursAt words text p) ∧
    slot.generatedText = text.take pos

/-- No word occurs or begins in the first `n` bytes. -/
def ClearTo (words : List Bytes) (text : Bytes) (n : Nat) : Prop :=
  ∀ word ∈ words, ∀ p < n, ¬ word <+: text.drop p ∧ ¬ text.drop p <+: word

structure SentClear (words : List Bytes) (slot : TextSlot) : Prop where
  bound : slot.nSentText ≤ slot.generatedText.length
  going : slot.stoppedWord = false
  clear : slot.stoppedEos = false → ClearTo words slot.generatedText slot.nSentText

variable {words : List Bytes} {stream : Bool} {slot next : TextSlot} {piece : TextPiece}
  {word text : Bytes} {pos size : Nat}

theorem findText_exists_le (occurs : word <+: text.drop pos) :
    ∃ first ≤ pos, findText word text = some first := by
  cases found : findText word text with
  | none =>
    have occurs := occurs.isInfix.trans (drop_suffix pos text).isInfix
    exact absurd occurs (not_infix_of_findText found)
  | some first => exact ⟨first, Nat.not_lt.mp fun before => (findText_spec found).2 pos before occurs, rfl⟩

theorem stopPosition_prefix (found : stopPosition text size true word = some pos) :
    word <+: text.drop pos := by
  obtain ⟨start, inWindow, same⟩ := map_eq_some_iff.mp found
  have here := (findText_spec inWindow).1
  rwa [drop_drop, add_comm, same] at here

theorem not_prefix_of_findPartialStop {tail : Bytes} (none_ : findPartialStop text word = none)
    (ends : tail <:+ text) (nonempty : tail ≠ []) : ¬ tail <+: word := by
  intro begins
  obtain ⟨init, last, rfl⟩ := (eq_nil_or_concat' tail).resolve_left nonempty
  have lastIs : text.getLast? = some last := by
    obtain ⟨front, rfl⟩ := ends
    simp
  obtain ⟨rest, rfl⟩ := begins
  rw [findPartialStop, lastIs] at none_
  have fails := find?_eq_none.mp (Option.map_eq_none_iff.mp none_) init.length (by simp)
  have whole : (init ++ [last] ++ rest).take (init.length + 1) = init ++ [last] :=
    take_left' (by simp)
  rw [whole] at fails
  simp [ends] at fails

theorem ClearTo.append {n : Nat} (clear : ClearTo words text n) (bound : n ≤ text.length)
    (more : Bytes) : ClearTo words (text ++ more) n := by
  intro word member p before
  have apart := clear word member p before
  rw [drop_append_of_le_length (by omega)]
  refine ⟨fun begins => ?_, fun begins => apart.2 ((prefix_append _ more).trans begins)⟩
  rcases prefix_or_prefix_of_prefix begins (prefix_append _ more) with inside | beyond
  · exact apart.1 inside
  · exact apart.2 beyond

theorem processComplete_clear (stream : Bool) (piece : TextPiece)
    (bound : slot.nSentText ≤ slot.generatedText.length)
    (clear : ClearTo words slot.generatedText slot.nSentText)
    (free : Unmatched words slot.generatedText) :
    let next := processComplete words stream slot piece
    next.generatedText = slot.generatedText ∧ next.stoppedWord = slot.stoppedWord ∧
      next.nSentText ≤ next.generatedText.length ∧
      (piece.isEog = false → ClearTo words next.generatedText next.nSentText) := by
  have none_ : findStoppingStrings words (slot.generatedText.drop slot.nSentText)
      piece.text.length true = none := by
    cases found : findStoppingStrings words (slot.generatedText.drop slot.nSentText)
        piece.text.length true with
    | none => rfl
    | some stop =>
      obtain ⟨word, member, here⟩ := exists_stopPosition found
      have occurs := stopPosition_prefix here
      rw [drop_drop] at occurs
      exact absurd (occurs.isInfix.trans (drop_suffix _ _).isInfix) (free word member)
  unfold processComplete
  dsimp only
  rw [Nat.min_eq_left bound, none_]
  dsimp only
  split_ifs with held
  · exact ⟨rfl, rfl, bound, fun _ => clear⟩
  · refine ⟨rfl, rfl, by simp only [sendText, length_drop]; omega, fun notEog word member p before => ?_⟩
    by_cases sent : p < slot.nSentText
    · exact clear word member p sent
    · refine ⟨fun occurs => free word member (occurs.isInfix.trans (drop_suffix p _).isInfix), ?_⟩
      simp only [sendText, length_drop] at before ⊢
      have positions := map_fst_findStoppingStrings words (slot.generatedText.drop slot.nSentText)
        piece.text.length false
      rw [notEog, Bool.not_false, Bool.true_and, not_isSome_iff_eq_none] at held
      rw [held] at positions
      have partial_ := filterMap_eq_nil_iff.mp (min?_eq_none_iff.mp positions.symm) word member
      refine not_prefix_of_findPartialStop partial_ ?_ (ne_nil_of_length_pos (by rw [length_drop]; omega))
      rw [show p = slot.nSentText + (p - slot.nSentText) by omega, ← drop_drop]
      exact drop_suffix _ _

/-- The slot when `process_token` comes to the limits. -/
def afterText (words : List Bytes) (stream : Bool) (slot : TextSlot) (piece : TextPiece) : TextSlot :=
  if validateUtf8 (slot.generatedText ++ piece.text) < (slot.generatedText ++ piece.text).length
    then extend slot piece
  else processComplete words stream (extend slot piece) piece

theorem textStep_some (stepped : textStep words stream slot piece = some next) :
    slot.stoppedWord = false ∧ slot.stoppedEos = false ∧
      checkLimits (afterText words stream slot piece) piece = next := by
  unfold textStep at stepped
  split_ifs at stepped with stopped
  rw [Bool.or_eq_true, not_or, Bool.not_eq_true, Bool.not_eq_true] at stopped
  exact ⟨stopped.1, stopped.2, some.inj stepped⟩

theorem textStep_clear (clear : SentClear words slot)
    (free : Unmatched words (slot.generatedText ++ piece.text))
    (stepped : textStep words stream slot piece = some next) :
    SentClear words next ∧ next.generatedText = slot.generatedText ++ piece.text := by
  obtain ⟨going, running, rfl⟩ := textStep_some stepped
  have longer : ClearTo words (extend slot piece).generatedText (extend slot piece).nSentText :=
    (clear.clear running).append clear.bound piece.text
  have bound : (extend slot piece).nSentText ≤ (extend slot piece).generatedText.length :=
    Nat.le_trans clear.bound (by simp [extend])
  obtain ⟨mid, same, text, word, fits, apart⟩ : ∃ mid, afterText words stream slot piece = mid ∧
      mid.generatedText = slot.generatedText ++ piece.text ∧ mid.stoppedWord = false ∧
      mid.nSentText ≤ mid.generatedText.length ∧
      (piece.isEog = false → ClearTo words mid.generatedText mid.nSentText) := by
    unfold afterText
    split_ifs
    · exact ⟨_, rfl, rfl, going, bound, fun _ => longer⟩
    · obtain ⟨text, word, fits, apart⟩ := processComplete_clear stream piece bound longer free
      exact ⟨_, rfl, text, word.trans going, fits, apart⟩
  rw [same]
  obtain ⟨sameText, count, -, sameWord⟩ := checkLimits_text mid piece
  refine ⟨⟨by rwa [count, sameText], sameWord.trans word, fun notEos => ?_⟩, sameText.trans text⟩
  rw [count, sameText]
  refine apart ?_
  cases eog : piece.isEog with
  | false => rfl
  | true =>
    unfold checkLimits at notEos
    split_ifs at notEos

theorem foldlM_clear {pieces : List TextPiece} (clear : SentClear words slot)
    (free : pieces ≠ [] → Unmatched words (slot.generatedText ++ textOf pieces))
    (run : pieces.foldlM (textStep words stream) slot = some next) :
    SentClear words next ∧
      next.generatedText = slot.generatedText ++ textOf pieces := by
  induction pieces generalizing slot with
  | nil =>
    cases run
    exact ⟨clear, (append_nil _).symm⟩
  | cons piece rest ih =>
    obtain ⟨mid, stepped, later⟩ := bind_eq_some_iff.mp run
    have whole := free (cons_ne_nil _ _)
    rw [textOf, flatMap_cons, ← append_assoc] at whole ⊢
    obtain ⟨midClear, text⟩ := textStep_clear clear
      (fun word member occurs => whole word member (occurs.trans (prefix_append _ _).isInfix)) stepped
    rw [← text] at whole ⊢
    exact ih midClear (fun _ => whole) later

/-- While no stop word has occurred, what is sent belongs to none, whatever comes after it. -/
theorem sent_never_stops {pieces : List TextPiece}
    (run : pieces.foldlM (textStep words stream) {} = some slot)
    (free : Unmatched words (textOf pieces)) (running : slot.stoppedEos = false) (more : Bytes)
    (occurs : OccursAt words (textOf pieces ++ more) pos) : slot.nSentText ≤ pos := by
  have start : SentClear words {} := ⟨Nat.le_refl 0, rfl, fun _ _ _ p before => by contradiction⟩
  obtain ⟨clear, text⟩ := foldlM_clear start (fun _ => free) run
  rw [nil_append] at text
  obtain ⟨word, member, begins⟩ := occurs
  by_contra early
  rw [← text] at begins
  exact ((clear.clear running).append clear.bound more word member pos (by omega)).1 begins

/-- "xa" is held back for the stop word "ab". -/
theorem sent_never_stops_at_heldBack :
    ({ generatedText := [120, 97], chunks := [[]] } : TextSlot).nSentText ≤ 1 :=
  @sent_never_stops [[97, 98]] true _ _ [⟨[120, 97], false, false, false⟩] rfl
    (by unfold Unmatched; decide) rfl [98] ⟨[97, 98], by decide, by decide⟩

/-- The window after a new piece holds every occurrence that reaches into it. -/
theorem stopPosition_exists_le {old : Bytes} {n p : Nat} (bound : n ≤ old.length)
    (clear : ClearTo words old n) (free : old ≠ [] → Unmatched words old) (member : word ∈ words)
    (occurs : word <+: (old ++ text).drop p) :
    ∃ q, stopPosition ((old ++ text).drop n) text.length true word = some q ∧ n + q ≤ p := by
  have unsent : n ≤ p := by
    by_contra sent
    exact (clear.append bound text word member p (by omega)).1 occurs
  obtain ⟨start, same⟩ : ∃ start,
      ((old ++ text).drop n).length - (word.length + text.length) = start := ⟨_, rfl⟩
  have reached : start ≤ p - n := by
    by_contra early
    rw [length_drop, length_append] at same
    have short : p + word.length < old.length := by omega
    rw [drop_append_of_le_length (by omega)] at occurs
    have within := prefix_of_prefix_length_le occurs (prefix_append _ text)
      (by rw [length_drop]; omega)
    exact free (ne_nil_of_length_pos (by omega)) word member
      (within.isInfix.trans (drop_suffix p old).isInfix)
  have there : word <+: (((old ++ text).drop n).drop start).drop (p - n - start) := by
    rwa [drop_drop, drop_drop, show n + (start + (p - n - start)) = p by omega]
  obtain ⟨first, le, found⟩ := findText_exists_le there
  exact ⟨first + start, by rw [stopPosition, if_pos rfl, findTextFrom, same, found]; rfl, by omega⟩

/-- The token that completes the first occurrence of a stop word stops the slot there exactly
when the text with the token does not end inside a character. -/
theorem stops_at_first_iff {pieces : List TextPiece} {before after : TextSlot}
    (run : pieces.foldlM (textStep words stream) {} = some before)
    (stepped : textStep words stream before piece = some after)
    (free : pieces ≠ [] → Unmatched words (textOf pieces))
    (occurs : ¬ Unmatched words (textOf (pieces ++ [piece]))) :
    CutAtFirst words (textOf (pieces ++ [piece])) after ↔
      validateUtf8 (textOf (pieces ++ [piece])) =
        (textOf (pieces ++ [piece])).length := by
  have start : SentClear words {} := ⟨Nat.le_refl 0, rfl, fun _ _ _ p before => by contradiction⟩
  obtain ⟨clear, old⟩ := foldlM_clear start free run
  rw [nil_append] at old
  have whole : textOf (pieces ++ [piece]) = before.generatedText ++ piece.text := by
    rw [textOf, flatMap_append, old, textOf, flatMap_singleton]
  rw [whole] at occurs ⊢
  obtain ⟨going, running, rfl⟩ := textStep_some stepped
  obtain ⟨sameText, -, -, sameWord⟩ := checkLimits_text (afterText words stream before piece) piece
  constructor
  · rintro ⟨⟨word, -⟩, -⟩
    by_contra cut
    rw [sameWord, afterText, if_pos (Nat.lt_of_le_of_ne (validateUtf8_le _) cut)] at word
    exact absurd (going.symm.trans word) nofun
  · intro complete
    have reached {word : Bytes} {p : Nat} (member : word ∈ words)
        (here : word <+: (before.generatedText ++ piece.text).drop p) :=
      stopPosition_exists_le clear.bound (clear.clear running)
        (fun nonempty => old ▸ free (by rintro rfl; exact nonempty old)) member here
    have positions := map_fst_findStoppingStrings words
      ((before.generatedText ++ piece.text).drop before.nSentText) piece.text.length true
    cases found : findStoppingStrings words
        ((before.generatedText ++ piece.text).drop before.nSentText) piece.text.length true with
    | none =>
      rw [found] at positions
      refine absurd (fun word member infix_ => ?_) occurs
      obtain ⟨front, back, same⟩ := infix_
      obtain ⟨q, at_, -⟩ := reached (p := front.length) member (by simp [← same])
      have nowhere := filterMap_eq_nil_iff.mp (min?_eq_none_iff.mp positions.symm) word member
      exact absurd (nowhere.symm.trans at_) nofun
    | some stop =>
      rw [found] at positions
      obtain ⟨word, member, here⟩ := exists_stopPosition found
      have occursHere := stopPosition_prefix here
      rw [drop_drop] at occursHere
      have fields : (afterText words stream before piece).generatedText =
            (before.generatedText ++ piece.text).take (before.nSentText + stop.1) ∧
          (afterText words stream before piece).stoppedWord = true ∧
          (afterText words stream before piece).hasNextToken = false := by
        unfold afterText processComplete extend
        rw [if_neg (by omega)]
        dsimp only
        rw [Nat.min_eq_left (Nat.le_trans clear.bound (by simp)), found]
        exact ⟨rfl, rfl, rfl⟩
      refine ⟨⟨sameWord.trans fields.2.1, ?_⟩, before.nSentText + stop.1,
        ⟨word, member, occursHere⟩, ?_, sameText.trans fields.1⟩
      · unfold checkLimits
        split_ifs <;> first | rfl | exact fields.2.2
      · rintro p earlier ⟨other, isWord, there⟩
        obtain ⟨q, at_, le⟩ := reached isWord there
        have least := (min?_eq_some_iff.mp positions.symm).2 q (mem_filterMap.mpr ⟨other, isWord, at_⟩)
        omega

/-- The second token completes "ab" and stops the slot before it. -/
theorem stops_at_first_iff_at_split :
    ∃ after, textStep [[97, 98]] true { generatedText := [120, 97], chunks := [[]] }
      ⟨[98, 99], false, false, false⟩ = some after ∧ CutAtFirst [[97, 98]] [120, 97, 98, 99] after :=
  ⟨_, rfl, (@stops_at_first_iff [[97, 98]] true ⟨[98, 99], false, false, false⟩
    [⟨[120, 97], false, false, false⟩] { generatedText := [120, 97], chunks := [[]] } _ rfl rfl
    (fun _ => by unfold Unmatched; decide) (by unfold Unmatched; decide)).mpr rfl⟩

/-- "ab" comes with the first byte of "é", so that it is not searched for, and the window of the
second byte does not reach back to it. -/
theorem stop_word_missed :
    ¬ ∀ (words : List Bytes) (pieces : List TextPiece) (piece : TextPiece) (before after : TextSlot),
      pieces.foldlM (textStep words true) {} = some before →
      textStep words true before piece = some after →
      (pieces ≠ [] → Unmatched words (textOf pieces)) →
      ¬ Unmatched words (textOf (pieces ++ [piece])) →
      CutAtFirst words (textOf (pieces ++ [piece])) after := by
  intro always
  have cut := always [[97, 98]] [] ⟨[97, 98, 0xC3], false, false, false⟩ _ _ rfl rfl
    (absurd rfl) (by unfold Unmatched; decide)
  exact absurd cut.stopped.1 (by decide)

/-- Nor is the slot stopped later. -/
example : ([⟨[97, 98, 0xC3], false, false, false⟩, ⟨[0xA9], false, false, false⟩].foldlM
    (textStep [[97, 98]] true) {}).map TextSlot.chunks = some [[97, 98, 0xC3, 0xA9]] := by
  decide

end LlamaCpp.Server
