import LlamaCpp.Peg.Parse

/-!
# Scanning a prefix

A lenient scan of `u` is compared with a strict scan of a text that `u` begins.  It needs
more input, or does the same, or succeeds at the end of `u`, unless a delimiter or a code
point is cut by the end of `u`.
-/

set_option autoImplicit false

namespace LlamaCpp.Peg

open LlamaCpp.Lib

/-- Both runs are at the same position, or the lenient run is at the end of `u`. -/
def Meets (u : List Byte) (p q : Nat) : Prop := p = q ∨ p = u.length

/-- What a result `early` on `u` from `p` says of the result `full` from `q` on a longer text.
Inside a lookahead, `look`, a success at the end of `u` must be one there as well. -/
structure Follows (u : List Byte) (look : Bool) (p q : Nat) (early full : ParseResult) : Prop where
  fails : early.type = .fail → full.type = .fail
  succeeds : early.type = .success →
    (full.type = .success ∧ full.end_ = early.end_) ∨
    (early.end_ = u.length ∧
      (look = true → full.type = .success ∧ (p = q → u.length ≤ full.end_)))

section Results

variable {u w : List Byte} {look : Bool} {p q : Nat} {early full : ParseResult}

theorem Follows.needMore (more : early.type = .needMoreInput) : Follows u look p q early full := by
  constructor <;> simp [more]

theorem Follows.fail (fails : full.type = .fail) (failed : early.type = .fail) :
    Follows u look p q early full :=
  ⟨fun _ => fails, fun success => by simp [failed] at success⟩

theorem Follows.same (success : full.type = .success) (succeeded : early.type = .success)
    (ends : full.end_ = early.end_) : Follows u look p q early full :=
  ⟨fun failed => by simp [succeeded] at failed, fun _ => .inl ⟨success, ends⟩⟩

theorem Follows.atEnd (success : full.type = .success) (succeeded : early.type = .success)
    (ends : early.end_ = u.length) (beyond : p = q → u.length ≤ full.end_) :
    Follows u look p q early full :=
  ⟨fun failed => by simp [succeeded] at failed, fun _ => .inr ⟨ends, fun _ => ⟨success, beyond⟩⟩⟩

theorem Follows.of_needMore_or_eq (either : early.type = .needMoreInput ∨ full = early) :
    Follows u look p q early full := by
  rcases either with more | rfl
  · exact .needMore more
  · exact ⟨id, fun success => .inl ⟨success, rfl⟩⟩

theorem Follows.of_eq {other fullOther : ParseResult} (follows : Follows u look p q early full)
    (type : other.type = early.type) (ends : other.end_ = early.end_)
    (fullType : fullOther.type = full.type) (fullEnds : fullOther.end_ = full.end_) :
    Follows u look p q other fullOther := by
  constructor
  · rw [type, fullType]
    exact follows.fails
  · rw [type, ends, fullType, fullEnds]
    exact follows.succeeds

theorem Follows.before {a b : Nat} (follows : Follows u look a b early full)
    (beyond : look = true → p = q → a ≠ b → full.type = .success → u.length ≤ full.end_) :
    Follows u look p q early full := by
  refine ⟨follows.fails, fun success => (follows.succeeds success).imp id ?_⟩
  rintro ⟨ends, strong⟩
  refine ⟨ends, fun inLook => ?_⟩
  obtain ⟨fullSuccess, further⟩ := strong inLook
  refine ⟨fullSuccess, fun same => ?_⟩
  by_cases together : a = b
  · exact further together
  · exact beyond inLook same together fullSuccess

/-- Outside lookaheads, a lenient run that reaches the end of `u` and does not fail. -/
theorem Follows.outside (notLook : look ≠ true) (stays : early.type ≠ .fail)
    (ends : early.type = .success → early.end_ = u.length) : Follows u look p q early full :=
  ⟨fun failed => absurd failed stays,
    fun success => .inr ⟨ends success, fun inLook => absurd inLook notLook⟩⟩

theorem Follows.success_inLook (follows : Follows u true p q early full)
    (succeeded : early.type = .success) : full.type = .success := by
  rcases follows.succeeds succeeded with ⟨success, -⟩ | ⟨-, strong⟩
  · exact success
  · exact (strong rfl).1

/-- The lenient run is at the end of `u`. -/
theorem Follows.frontier (regular : Regular false w q full)
    (either : early.type = .needMoreInput ∨
      (early.type = .success ∧ early.end_ = u.length ∧ full.type = .success)) :
    Follows u look u.length q early full := by
  rcases either with more | ⟨succeeded, ends, success⟩
  · exact .needMore more
  · exact .atEnd success succeeded ends fun same => same ▸ regular.forward success

end Results

section Scanners

variable {u w : List Byte} {look : Bool}

section

variable (isPrefix : u <+: w)
include isPrefix

theorem getElem?_of_isPrefix {pos : Nat} {byte : Byte}
    (there : u[pos]? = some byte) : w[pos]? = some byte := by
  obtain ⟨inside, same⟩ := List.getElem?_eq_some_iff.mp there
  rw [List.prefix_iff_getElem?.mp isPrefix pos inside, same]

theorem parseLiteral_isPrefix (startPos : Nat) (literal : List Byte) (pos : Nat) :
    (parseLiteral true u startPos literal pos).type = .needMoreInput ∨
      parseLiteral false w startPos literal pos = parseLiteral true u startPos literal pos := by
  induction literal generalizing pos with
  | nil => exact .inr rfl
  | cons c rest ih =>
    simp only [parseLiteral]
    cases byte : u[pos]? with
    | none => exact .inl rfl
    | some b =>
      rw [getElem?_of_isPrefix isPrefix byte]
      simp only
      split_ifs
      · exact .inr rfl
      · exact ih (pos + 1)

theorem parseAny_isPrefix (pos : Nat) :
    (parseAny true u pos).type = .needMoreInput ∨ parseAny false w pos = parseAny true u pos := by
  unfold parseAny
  cases decoded : parseUtf8Codepoint u pos with
  | incomplete => exact .inl rfl
  | invalid =>
    rw [parseUtf8Codepoint_invalid_of_isPrefix isPrefix decoded]
    exact .inr rfl
  | success codepoint bytes =>
    rw [parseUtf8Codepoint_success_of_isPrefix isPrefix decoded]
    exact .inr rfl

theorem hexDigits_isPrefix (start n pos : Nat) :
    (hexDigits true u start n pos).type = .needMoreInput ∨
      hexDigits false w start n pos = hexDigits true u start n pos := by
  induction n generalizing pos with
  | zero => exact .inr rfl
  | succ n ih =>
    simp only [hexDigits]
    cases byte : u[pos]? with
    | none => exact .inl rfl
    | some c =>
      rw [getElem?_of_isPrefix isPrefix byte]
      simp only
      split_ifs
      · exact .inr rfl
      · exact ih (pos + 1)

theorem handleEscapeSequence_isPrefix (start pos : Nat) (delimiter : Byte) :
    (handleEscapeSequence true u start pos delimiter).type = .needMoreInput ∨
      handleEscapeSequence false w start pos delimiter =
        handleEscapeSequence true u start pos delimiter := by
  unfold handleEscapeSequence
  cases byte : u[pos + 1]? with
  | none => exact .inl rfl
  | some c =>
    rw [getElem?_of_isPrefix isPrefix byte]
    simp only
    split_ifs
    · exact .inr rfl
    · exact hexDigits_isPrefix isPrefix start 4 (pos + 1 + 1)
    · exact .inr rfl

theorem parseString_isPrefix (delimiter : Byte) (startPos pos : Nat) :
    (parseString delimiter true u startPos pos).type = .needMoreInput ∨
      parseString delimiter false w startPos pos = parseString delimiter true u startPos pos := by
  have longer := isPrefix.length_le
  fun_induction parseString delimiter true u startPos pos with
  | case1 pos inside closing =>
    right
    rw [parseString, dif_pos (by omega), ← isPrefix.getElem inside, if_pos closing]
  | case2 pos inside other backslash result escaped ih =>
    have within : pos < w.length := by omega
    have byte : w[pos] = u[pos] := (isPrefix.getElem inside).symm
    rcases handleEscapeSequence_isPrefix isPrefix startPos pos delimiter with more | same
    · exact absurd (more.symm.trans escaped) (by simp)
    · have step : parseString delimiter false w startPos pos =
          parseString delimiter false w startPos result.end_ := by
        rw [parseString_backslash within (byte ▸ other) (byte.trans backslash), same]
        exact if_pos escaped
      rw [step]
      exact ih
  | case3 pos inside other backslash result escaped =>
    have within : pos < w.length := by omega
    have byte : w[pos] = u[pos] := (isPrefix.getElem inside).symm
    rcases handleEscapeSequence_isPrefix isPrefix startPos pos delimiter with more | same
    · exact .inl more
    · right
      rw [parseString_backslash within (byte ▸ other) (byte.trans backslash), same]
      exact if_neg escaped
  | case4 => exact .inl rfl
  | case5 pos inside other plain decoded =>
    have within : pos < w.length := by omega
    have byte : w[pos] = u[pos] := (isPrefix.getElem inside).symm
    right
    rw [parseString_plain within (byte ▸ other) (byte ▸ plain),
      parseUtf8Codepoint_invalid_of_isPrefix isPrefix decoded]
  | case6 pos inside other plain codepoint bytes decoded ih =>
    have within : pos < w.length := by omega
    have byte : w[pos] = u[pos] := (isPrefix.getElem inside).symm
    have step : parseString delimiter false w startPos pos =
        parseString delimiter false w startPos (pos + bytes) := by
      rw [parseString_plain within (byte ▸ other) (byte ▸ plain),
        parseUtf8Codepoint_success_of_isPrefix isPrefix decoded]
    rw [step]
    exact ih
  | case7 pos beyond strict => simp at strict
  | case8 => exact .inl rfl

/-- What the trie decides before the end of `u` stands. -/
theorem checkFrom_isPrefix (children : Children) (moved : Bool) (pos : Nat)
    (begun : moved = true ∨ parseUtf8Codepoint u pos ≠ .incomplete ∧
      parseUtf8Codepoint u pos ≠ .invalid) :
    checkFrom u children moved pos = .partialMatch ∨
      checkFrom w children moved pos = checkFrom u children moved pos := by
  have longer := isPrefix.length_le
  fun_induction checkFrom u children moved pos with
  | case1 children moved pos before codepoint bytes decoded missing =>
    rw [checkFrom_eq, if_pos (by omega), parseUtf8Codepoint_success_of_isPrefix isPrefix decoded]
    simp [missing]
  | case2 children moved pos before codepoint bytes decoded below found =>
    rw [checkFrom_eq, if_pos (by omega), parseUtf8Codepoint_success_of_isPrefix isPrefix decoded]
    simp [found]
  | case3 children moved pos before codepoint bytes decoded isWord below found word ih =>
    have step : checkFrom w children moved pos = checkFrom w below true (pos + bytes) := by
      rw [checkFrom_eq, if_pos (by omega), parseUtf8Codepoint_success_of_isPrefix isPrefix decoded]
      simp [found, if_neg word]
    rw [step]
    exact ih (.inl rfl)
  | case4 children moved pos stopped inside other =>
    rcases begun with isMoved | ⟨notIncomplete, notInvalid⟩
    · simp [stopped, isMoved]
    · cases decoded : parseUtf8Codepoint u pos with
      | success codepoint bytes => exact absurd decoded (other codepoint bytes)
      | incomplete => exact absurd decoded notIncomplete
      | invalid => exact absurd decoded notInvalid
  | case5 children moved pos stopped beyond =>
    rcases begun with isMoved | ⟨notIncomplete, -⟩
    · simp [stopped, isMoved]
    · exact absurd (parseUtf8Codepoint_beyond (by omega)) notIncomplete

/-- `until` does the same on both texts unless a delimiter is cut by the end of `u` that is
none on `w`. -/
theorem parseUntil_isPrefix (matcher : Trie) (startPos pos : Nat)
    (inside : pos ≤ u.length)
    (uncut : (parseUntil matcher true u startPos pos).type = .success →
      matcher.checkAt u (parseUntil matcher true u startPos pos).end_ = .partialMatch →
      matcher.checkAt w (parseUntil matcher true u startPos pos).end_ ≠ .noMatch) :
    (parseUntil matcher true u startPos pos).type = .needMoreInput ∨
      parseUntil matcher false w startPos pos = parseUntil matcher true u startPos pos := by
  have longer := isPrefix.length_le
  fun_induction parseUntil matcher true u startPos pos with
  | case1 => exact .inl rfl
  | case2 pos before decoded =>
    right
    rw [parseUntil_eq, if_pos (by omega), parseUtf8Codepoint_invalid_of_isPrefix isPrefix decoded]
  | case3 pos before codepoint bytes decoded complete =>
    have kept : matcher.checkAt w pos = .completeMatch := by
      rcases checkFrom_isPrefix isPrefix matcher.children false pos (.inr (by simp [decoded]))
        with cut | same
      · rw [Trie.checkAt, cut] at complete
        cases complete
      · exact same.trans complete
    rw [parseUntil_eq, parseUtf8Codepoint_success_of_isPrefix isPrefix decoded]
    simp [kept]
  | case4 pos before codepoint bytes decoded cut =>
    right
    have still := uncut rfl cut
    rw [parseUntil_eq, if_pos (by omega), parseUtf8Codepoint_success_of_isPrefix isPrefix decoded]
    cases fullMatch : matcher.checkAt w pos with
    | noMatch => exact absurd fullMatch still
    | partialMatch => rfl
    | completeMatch => rfl
  | case5 pos before codepoint bytes decoded unmatched ih =>
    have kept : matcher.checkAt w pos = .noMatch := by
      rcases checkFrom_isPrefix isPrefix matcher.children false pos (.inr (by simp [decoded]))
        with cut | same
      · rw [Trie.checkAt, cut] at unmatched
        cases unmatched
      · exact same.trans unmatched
    have step : parseUntil matcher false w startPos pos =
        parseUntil matcher false w startPos (pos + bytes) := by
      rw [parseUntil_eq, if_pos (by omega),
        parseUtf8Codepoint_success_of_isPrefix isPrefix decoded]
      simp [kept]
    rw [step]
    exact ih (parseUtf8Codepoint_bytes decoded).2 uncut
  | case6 => exact .inl rfl
  | case7 pos beyond other => exact absurd ⟨by omega, rfl⟩ other

end

theorem parseSpace_success (input : List Byte) (startPos pos : Nat) :
    (parseSpace input startPos pos).type = .success := by
  fun_induction parseSpace input startPos pos with
  | case1 pos inside space ih => exact ih
  | case2 => rfl
  | case3 => rfl

theorem parseSpace_follows (isPrefix : u <+: w) (startPos fullStart pos : Nat)
    (inside : pos ≤ u.length) :
    Follows u look pos pos (parseSpace u startPos pos) (parseSpace w fullStart pos) := by
  have longer := isPrefix.length_le
  fun_induction parseSpace u startPos pos with
  | case1 pos before space ih =>
    have within : pos < w.length := by omega
    have byte : w[pos] = u[pos] := (isPrefix.getElem before).symm
    have step : parseSpace w fullStart pos = parseSpace w fullStart (pos + 1) := by
      rw [parseSpace, dif_pos within, byte, if_pos space]
    rw [step]
    exact (ih before).before fun _ _ other => absurd rfl other
  | case2 pos before other =>
    have within : pos < w.length := by omega
    have byte : w[pos] = u[pos] := (isPrefix.getElem before).symm
    rw [parseSpace, dif_pos within, byte, if_neg other]
    exact .same rfl rfl rfl
  | case3 pos beyond =>
    have fullRegular := @parseSpace_regular w false fullStart pos
    have success := parseSpace_success w fullStart pos
    refine .atEnd success rfl (by simp only; omega) fun _ => ?_
    have := fullRegular.forward success
    omega

theorem parseChars_enough {spec : CharsSpec} {lenient : Bool} {input : List Byte}
    {startPos pos matchCount : Nat} (enough : spec.minCount ≤ matchCount) :
    (parseChars spec lenient input startPos pos matchCount).type = .success := by
  have ended : ∀ pos matchCount : Nat, spec.minCount ≤ matchCount →
      (charsEnd spec lenient input startPos pos matchCount).type = .success := by
    intro pos matchCount enough
    rw [charsEnd, if_neg (by omega)]
  fun_induction parseChars spec lenient input startPos pos matchCount with
  | case1 => rfl
  | case2 pos matchCount more decoded few => exact absurd enough few
  | case3 => rfl
  | case4 pos matchCount more decoded few => exact absurd enough few
  | case5 pos matchCount more codepoint bytes decoded inClass ih =>
    exact ih (by omega)
  | case6 => exact ended _ _ enough
  | case7 => exact ended _ _ enough

theorem parseChars_atEnd {spec : CharsSpec} {input : List Byte} {startPos pos matchCount : Nat}
    (beyond : input.length ≤ pos) :
    (parseChars spec true input startPos pos matchCount).type = .needMoreInput ∨
      (spec.minCount ≤ matchCount ∧
        parseChars spec true input startPos pos matchCount = ⟨.success, startPos, pos, []⟩) := by
  rw [parseChars_eq, parseUtf8Codepoint_beyond beyond]
  by_cases enough : spec.minCount ≤ matchCount
  · right
    refine ⟨enough, ?_⟩
    simp [charsEnd, if_pos enough, if_neg (not_lt.mpr enough)]
  · simp only [charsEnd, outOfInput]
    split_ifs <;> simp_all

/-- `chars` does the same on both texts up to the end of `u`, unless a code point is cut there
that `chars` takes on `w`. -/
theorem parseChars_follows (isPrefix : u <+: w) (spec : CharsSpec)
    (startPos fullStart pos matchCount : Nat) (inside : pos ≤ u.length)
    (uncut : (parseChars spec true u startPos pos matchCount).type = .success →
      (parseChars spec true u startPos pos matchCount).end_ < u.length →
      parseUtf8Codepoint u (parseChars spec true u startPos pos matchCount).end_ = .incomplete →
      (parseChars spec false w fullStart pos matchCount).end_ =
        (parseChars spec true u startPos pos matchCount).end_) :
    Follows u look pos pos (parseChars spec true u startPos pos matchCount)
      (parseChars spec false w fullStart pos matchCount) := by
  have ended : ∀ pos matchCount : Nat, pos < u.length ∨ spec.minCount ≤ matchCount →
      Follows u look pos pos (charsEnd spec true u startPos pos matchCount)
        (charsEnd spec false w fullStart pos matchCount) := by
    intro pos matchCount settled
    by_cases few : matchCount < spec.minCount
    · rw [charsEnd, charsEnd, if_pos few, if_pos few, if_neg (by omega), if_neg (by simp)]
      exact .fail rfl rfl
    · rw [charsEnd, charsEnd, if_neg few, if_neg few]
      exact .same rfl rfl rfl
  fun_induction parseChars spec true u startPos pos matchCount with
  | case1 pos matchCount more decoded enough =>
    have success := @parseChars_enough spec false w fullStart pos matchCount enough
    by_cases before : pos < u.length
    · exact .same success rfl (uncut rfl before decoded)
    · have regular := @parseChars_regular w false fullStart pos spec matchCount
      refine .atEnd success rfl (by simp only; omega) fun _ => ?_
      have := regular.forward success
      omega
  | case2 => exact .needMore rfl
  | case3 pos matchCount more decoded enough =>
    rw [parseChars_eq, if_pos more, parseUtf8Codepoint_invalid_of_isPrefix isPrefix decoded]
    simp only [if_pos enough]
    exact .same rfl rfl rfl
  | case4 pos matchCount more decoded few =>
    rw [parseChars_eq, if_pos more, parseUtf8Codepoint_invalid_of_isPrefix isPrefix decoded]
    simp only [if_neg few]
    exact .fail rfl rfl
  | case5 pos matchCount more codepoint bytes decoded inClass ih =>
    have step : parseChars spec false w fullStart pos matchCount =
        parseChars spec false w fullStart (pos + bytes) (matchCount + 1) := by
      rw [parseChars_eq, if_pos more, parseUtf8Codepoint_success_of_isPrefix isPrefix decoded]
      simp [if_pos inClass]
    rw [step] at uncut ⊢
    exact (ih (parseUtf8Codepoint_bytes decoded).2 uncut).before fun _ _ other =>
      absurd rfl other
  | case6 pos matchCount more codepoint bytes decoded other =>
    obtain ⟨positive, fits⟩ := parseUtf8Codepoint_bytes decoded
    rw [parseChars_eq, if_pos more, parseUtf8Codepoint_success_of_isPrefix isPrefix decoded]
    simp only [if_neg other]
    exact ended pos matchCount (.inl (by omega))
  | case7 pos matchCount full =>
    rw [parseChars_eq, if_neg full]
    by_cases enough : spec.minCount ≤ matchCount
    · exact ended pos matchCount (.inr enough)
    · by_cases before : pos < u.length
      · exact ended pos matchCount (.inl before)
      · refine .needMore ?_
        rw [charsEnd, if_pos (not_le.mp enough), if_pos ⟨not_lt.mp before, rfl⟩]

theorem parseLiteral_atEnd (startPos : Nat) (literal : List Byte) :
    (parseLiteral true u startPos literal u.length).type = .needMoreInput ∨
      (literal = [] ∧ (parseLiteral true u startPos literal u.length).end_ = u.length) := by
  cases literal with
  | nil => exact .inr ⟨rfl, rfl⟩
  | cons c rest =>
    left
    simp only [parseLiteral, List.getElem?_eq_none (le_refl u.length)]
    rfl

theorem parseSpace_atEnd (startPos : Nat) :
    parseSpace u startPos u.length = ⟨.success, startPos, u.length, []⟩ := by
  rw [parseSpace, dif_neg (lt_irrefl _)]

theorem parseString_atEnd (delimiter : Byte) (startPos : Nat) :
    (parseString delimiter true u startPos u.length).type = .needMoreInput := by
  rw [parseString, dif_neg (lt_irrefl _)]
  rfl

theorem parseUntil_atEnd (matcher : Trie) (startPos : Nat) :
    (parseUntil matcher true u startPos u.length).type = .needMoreInput := by
  rw [parseUntil_eq, if_neg (lt_irrefl _), if_pos ⟨rfl, rfl⟩]

theorem parseAny_atEnd : (parseAny true u u.length).type = .needMoreInput := by
  rw [parseAny, parseUtf8Codepoint_beyond (le_refl _)]
  rfl

/-- On one text, `chars` that needs no more input does the same in both modes. -/
theorem parseChars_strict {spec : CharsSpec} {text : List Byte} {startPos pos matchCount : Nat}
    (decided : (parseChars spec true text startPos pos matchCount).type ≠ .needMoreInput) :
    parseChars spec false text startPos pos matchCount =
      parseChars spec true text startPos pos matchCount := by
  have ended : ∀ pos matchCount : Nat,
      (charsEnd spec true text startPos pos matchCount).type ≠ .needMoreInput →
      charsEnd spec false text startPos pos matchCount =
        charsEnd spec true text startPos pos matchCount := by
    intro pos matchCount decided
    by_cases few : matchCount < spec.minCount
    · rw [charsEnd, if_pos few] at decided ⊢
      rw [charsEnd, if_pos few, if_neg (by simp)]
      by_cases beyond : text.length ≤ pos
      · rw [if_pos ⟨beyond, rfl⟩] at decided
        exact absurd rfl decided
      · rw [if_neg fun both => beyond both.1]
    · rw [charsEnd, charsEnd, if_neg few, if_neg few]
  fun_induction parseChars spec true text startPos pos matchCount with
  | case1 pos matchCount more decoded enough =>
    rw [parseChars_eq, if_pos more, decoded]
    simp [if_pos enough]
  | case2 pos matchCount more decoded few => exact absurd rfl decided
  | case3 pos matchCount more decoded enough =>
    rw [parseChars_eq, if_pos more, decoded]
    simp [if_pos enough]
  | case4 pos matchCount more decoded few =>
    rw [parseChars_eq, if_pos more, decoded]
    simp [if_neg few]
  | case5 pos matchCount more codepoint bytes decoded inClass ih =>
    rw [parseChars_eq, if_pos more, decoded]
    simp only [if_pos inClass]
    exact ih decided
  | case6 pos matchCount more codepoint bytes decoded other =>
    rw [parseChars_eq, if_pos more, decoded]
    simp only [if_neg other]
    exact ended pos matchCount decided
  | case7 pos matchCount stopped =>
    rw [parseChars_eq, if_neg stopped]
    exact ended pos matchCount decided

end Scanners

end LlamaCpp.Peg
