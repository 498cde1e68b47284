import LlamaCpp.Peg.LenientScan

/-!
# Lenient parses of prefixes

A lenient parse of `u` is compared with a strict parse of a text that goes on after `u`.
Three things can break the comparison: a delimiter or a code point cut by the end of `u`, and
an `end` or `start` that takes the end of `u` for the end of the text.
-/

set_option autoImplicit false

namespace LlamaCpp.Peg

open LlamaCpp.Lib Option

/-! ## The parsers with children -/

structure Agree (u w : List Byte) (look : Bool) (asked : Site → Prop)
    (early full : Site → Option ParseResult) : Prop where
  follows : ∀ id p q earlyResult fullResult, asked ⟨id, p⟩ → p ≤ u.length → Meets u p q →
    early ⟨id, p⟩ = some earlyResult → full ⟨id, q⟩ = some fullResult →
    Follows u look p q earlyResult fullResult
  earlyRegular : ∀ site result, early site = some result → Regular true u site.pos result
  fullRegular : ∀ site result, full site = some result → Regular false w site.pos result

section Children

variable {u w : List Byte} {look : Bool} {asked : Site → Prop}
  {early full : Site → Option ParseResult} {earlyResult fullResult : ParseResult}

theorem parseSequence_follows (agree : Agree u w look asked early full) (startPos fullStart : Nat)
    (children : List ParserId) (p q : Nat) (nodes fullNodes : List AstNode) (inside : p ≤ u.length)
    (meets : Meets u p q)
    (asks : ∀ site, (parseSequence startPos children p nodes).Asks early site → asked site)
    (earlyRuns : (parseSequence startPos children p nodes).run early = some earlyResult)
    (fullRuns : (parseSequence fullStart children q fullNodes).run full = some fullResult) :
    Follows u look p q earlyResult fullResult := by
  induction children generalizing p q nodes fullNodes with
  | nil =>
    obtain rfl := some.inj earlyRuns
    obtain rfl := some.inj fullRuns
    rcases meets with same | ended
    · exact .same rfl rfl same.symm
    · exact .atEnd rfl rfl ended fun same => ended ▸ same.le
  | cons child rest ih =>
    obtain ⟨first, answered, earlyRest⟩ := Asking.run_ask_some earlyRuns
    obtain ⟨fullFirst, fullAnswered, fullRest⟩ := Asking.run_ask_some fullRuns
    have follows := agree.follows child p q first fullFirst (asks _ (.head _ _)) inside meets
      answered fullAnswered
    have regular := agree.earlyRegular _ _ answered
    have fullRegular := agree.fullRegular _ _ fullAnswered
    cases type : first.type with
    | fail =>
      simp only [type] at earlyRest
      simp only [follows.fails type] at fullRest
      obtain rfl := some.inj earlyRest
      obtain rfl := some.inj fullRest
      exact .fail rfl rfl
    | needMoreInput =>
      simp only [type] at earlyRest
      obtain rfl := some.inj earlyRest
      exact .needMore rfl
    | success =>
      simp only [type] at earlyRest
      have within := regular.inside type inside
      have laterAsks : ∀ site, (parseSequence startPos rest first.end_
          (nodes ++ first.nodes)).Asks early site → asked site := by
        intro site later
        refine asks site (Asking.Asks.next answered ?_)
        simp only [type]
        exact later
      cases fullType : fullFirst.type with
      | success =>
        simp only [fullType] at fullRest
        have lateRegular := (parseSequence_regular agree.fullRegular rest fullFirst.end_
          (fullNodes ++ fullFirst.nodes)).result _ fullRest
        rcases follows.succeeds type with ⟨-, ends⟩ | ⟨ends, strong⟩
        · have later := ih first.end_ fullFirst.end_ _ _ within (.inl ends.symm) laterAsks
            earlyRest fullRest
          exact later.before fun _ _ other => absurd ends.symm other
        · have later := ih first.end_ fullFirst.end_ _ _ within (.inr ends) laterAsks
            earlyRest fullRest
          exact later.before fun inLook same _ success =>
            le_trans ((strong inLook).2 same) (lateRegular.forward success)
      | needMoreInput => exact absurd (fullRegular.decided fullType) (by simp)
      | fail =>
        -- the lenient run goes on at the end of `u`, outside lookaheads
        rcases follows.succeeds type with ⟨success, -⟩ | ⟨ends, strong⟩
        · rw [fullType] at success
          cases success
        · have outside : look ≠ true := fun inLook => by
            have success := (strong inLook).1
            rw [fullType] at success
            cases success
          simp only [fullType] at fullRest
          obtain rfl := some.inj fullRest
          have lateRegular := (parseSequence_regular agree.earlyRegular rest first.end_
            (nodes ++ first.nodes)).result _ earlyRest
          refine ⟨fun _ => rfl, fun success => .inr ⟨?_, fun inLook => absurd inLook outside⟩⟩
          have above := lateRegular.forward success
          have below := lateRegular.inside success within
          omega

theorem parseChoice_follows (agree : Agree u w look asked early full) (children : List ParserId)
    (p q : Nat) (inside : p ≤ u.length) (meets : Meets u p q)
    (asks : ∀ site, (parseChoice p children).Asks early site → asked site)
    (earlyRuns : (parseChoice p children).run early = some earlyResult)
    (fullRuns : (parseChoice q children).run full = some fullResult) :
    Follows u look p q earlyResult fullResult := by
  induction children with
  | nil =>
    obtain rfl := some.inj earlyRuns
    obtain rfl := some.inj fullRuns
    exact .fail rfl rfl
  | cons child rest ih =>
    obtain ⟨first, answered, earlyRest⟩ := Asking.run_ask_some earlyRuns
    obtain ⟨fullFirst, fullAnswered, fullRest⟩ := Asking.run_ask_some fullRuns
    have follows := agree.follows child p q first fullFirst (asks _ (.head _ _)) inside meets
      answered fullAnswered
    by_cases failed : first.type = .fail
    · rw [if_neg (not_not.mpr failed)] at earlyRest
      rw [if_neg (not_not.mpr (follows.fails failed))] at fullRest
      refine ih (fun site later => asks site (Asking.Asks.next answered ?_)) earlyRest fullRest
      rw [if_neg (not_not.mpr failed)]
      exact later
    · rw [if_pos failed] at earlyRest
      obtain rfl := some.inj earlyRest
      by_cases fullFailed : fullFirst.type = .fail
      · -- the lenient run stays with its alternative
        refine ⟨fun fails => absurd fails failed, fun success => ?_⟩
        rcases follows.succeeds success with ⟨fullSuccess, -⟩ | ⟨ends, strong⟩
        · rw [fullFailed] at fullSuccess
          cases fullSuccess
        · refine .inr ⟨ends, fun inLook => ?_⟩
          have fullSuccess := (strong inLook).1
          rw [fullFailed] at fullSuccess
          cases fullSuccess
      · rw [if_pos fullFailed] at fullRest
        obtain rfl := some.inj fullRest
        exact follows

def RepetitionSpec.Enough (spec : RepetitionSpec) (matchCount : Nat) : Prop :=
  ¬ (0 < spec.minCount ∧ matchCount < spec.minCount)

variable {spec : RepetitionSpec} {matchCount pos : Nat} {nodes : List AstNode}

theorem RepetitionSpec.Enough.succ (enough : spec.Enough matchCount) :
    spec.Enough (matchCount + 1) := by
  rintro ⟨positive, few⟩
  exact enough ⟨positive, by omega⟩

theorem repetitionEnd_enough {lenient : Bool} {input : List Byte} {startPos : Nat}
    (enough : spec.Enough matchCount) :
    repetitionEnd spec lenient input startPos pos matchCount nodes =
      ⟨.success, startPos, pos, nodes⟩ := if_neg enough

theorem repetitionEnd_few {lenient : Bool} {input : List Byte} {startPos : Nat}
    (few : ¬ spec.Enough matchCount) :
    repetitionEnd spec lenient input startPos pos matchCount nodes =
      if input.length ≤ pos ∧ lenient = true then ⟨.needMoreInput, startPos, pos, nodes⟩
      else ⟨.fail, startPos, pos, []⟩ := if_pos (not_not.mp few)

theorem parseRepetition_enough
    (regular : ∀ site result, full site = some result → Regular false w site.pos result)
    (startPos pos matchCount : Nat) (nodes : List AstNode) (enough : spec.Enough matchCount)
    (runs : (parseRepetition spec false w startPos pos matchCount nodes).run full = some fullResult) :
    fullResult.type = .success := by
  fun_induction parseRepetition spec false w startPos pos matchCount nodes with
  | case1 pos matchCount nodes more beyond =>
    obtain rfl := some.inj runs
    rw [repetitionEnd_enough enough]
  | case2 pos matchCount nodes more before ih =>
    obtain ⟨answer, answered, rest⟩ := Asking.run_ask_some runs
    cases type : answer.type with
    | fail =>
      simp only [type] at rest
      obtain rfl := some.inj rest
      rw [repetitionEnd_enough enough]
    | needMoreInput => exact absurd ((regular _ _ answered).decided type) (by simp)
    | success =>
      simp only [type] at rest
      split_ifs at rest with empty
      · obtain rfl := some.inj rest
        rw [repetitionEnd_enough enough]
      · exact ih answer empty enough.succ rest
  | case3 pos matchCount nodes stopped =>
    obtain rfl := some.inj runs
    rw [repetitionEnd_enough enough]

theorem parseRepetition_atEnd {startPos : Nat} (beyond : u.length ≤ pos) :
    parseRepetition spec true u startPos pos matchCount nodes =
      .done (repetitionEnd spec true u startPos pos matchCount nodes) := by
  rw [parseRepetition]
  simp [if_pos beyond]

theorem parseRepetition_frontier (agree : Agree u w look asked early full)
    {startPos fullStart q : Nat} {fullNodes : List AstNode}
    (earlyRuns : (parseRepetition spec true u startPos u.length matchCount nodes).run early = some earlyResult)
    (fullRuns : (parseRepetition spec false w fullStart q matchCount fullNodes).run full = some fullResult) :
    Follows u look u.length q earlyResult fullResult := by
  have regular := (parseRepetition_regular agree.fullRegular spec q matchCount fullNodes).result _
    fullRuns
  rw [parseRepetition_atEnd (le_refl _)] at earlyRuns
  obtain rfl := some.inj earlyRuns
  refine .frontier regular ?_
  by_cases enough : spec.Enough matchCount
  · rw [repetitionEnd_enough enough]
    exact .inr ⟨rfl, rfl, parseRepetition_enough agree.fullRegular _ _ _ _ enough fullRuns⟩
  · rw [repetitionEnd_few enough, if_pos ⟨le_refl _, rfl⟩]
    exact .inl rfl

theorem repetitionEnd_follows {startPos fullStart : Nat} {fullNodes : List AstNode}
    (before : pos < u.length) :
    Follows u look pos pos (repetitionEnd spec true u startPos pos matchCount nodes)
      (repetitionEnd spec false w fullStart pos matchCount fullNodes) := by
  by_cases enough : spec.Enough matchCount
  · rw [repetitionEnd_enough enough, repetitionEnd_enough enough]
    exact .same rfl rfl rfl
  · rw [repetitionEnd_few enough, repetitionEnd_few enough, if_neg (by omega), if_neg (by simp)]
    exact .fail rfl rfl

theorem parseRepetition_follows (agree : Agree u w look asked early full) (longer : u.length ≤ w.length)
    (spec : RepetitionSpec) (startPos fullStart p q matchCount : Nat)
    (nodes fullNodes : List AstNode) (inside : p ≤ u.length) (meets : Meets u p q)
    (asks : ∀ site, (parseRepetition spec true u startPos p matchCount nodes).Asks early site →
      asked site)
    (earlyRuns : (parseRepetition spec true u startPos p matchCount nodes).run early =
      some earlyResult)
    (fullRuns : (parseRepetition spec false w fullStart q matchCount fullNodes).run full =
      some fullResult) : Follows u look p q earlyResult fullResult := by
  fun_induction parseRepetition spec true u startPos p matchCount nodes
    generalizing q fullNodes with
  | case1 pos matchCount nodes more beyond =>
    have ended : pos = u.length := by omega
    subst ended
    rw [← parseRepetition_atEnd beyond] at earlyRuns
    exact parseRepetition_frontier agree earlyRuns fullRuns
  | case2 pos matchCount nodes more before ih =>
    obtain rfl : pos = q := meets.resolve_right (by omega)
    rw [parseRepetition, if_pos more, if_neg (by omega)] at fullRuns
    obtain ⟨answer, answered, earlyRest⟩ := Asking.run_ask_some earlyRuns
    obtain ⟨fullAnswer, fullAnswered, fullRest⟩ := Asking.run_ask_some fullRuns
    have follows := agree.follows spec.child pos pos answer fullAnswer (asks _ (.head _ _)) inside
      (.inl rfl) answered fullAnswered
    have regular := agree.earlyRegular _ _ answered
    cases type : answer.type with
    | fail =>
      simp only [type] at earlyRest
      simp only [follows.fails type] at fullRest
      obtain rfl := some.inj earlyRest
      obtain rfl := some.inj fullRest
      exact repetitionEnd_follows (by omega)
    | needMoreInput =>
      simp only [type] at earlyRest
      obtain rfl := some.inj earlyRest
      exact .needMore rfl
    | success =>
      simp only [type] at earlyRest
      have within := regular.inside type inside
      split_ifs at earlyRest with empty
      · rcases follows.succeeds type with ⟨fullSuccess, ends⟩ | ⟨ends, -⟩
        · simp only [fullSuccess, dif_pos (ends.trans_le empty)] at fullRest
          obtain rfl := some.inj earlyRest
          obtain rfl := some.inj fullRest
          exact repetitionEnd_follows (by omega)
        · omega
      · have laterAsks : ∀ site, (parseRepetition spec true u startPos answer.end_
            (matchCount + 1) (nodes ++ answer.nodes)).Asks early site → asked site := by
          intro site later
          refine asks site (Asking.Asks.next answered ?_)
          simp only [type, dif_neg empty]
          exact later
        by_cases further : fullAnswer.type = .success ∧ pos < fullAnswer.end_
        · obtain ⟨fullSuccess, goesOn⟩ := further
          simp only [fullSuccess, dif_neg (not_le.mpr goesOn)] at fullRest
          have lateRegular := (parseRepetition_regular agree.fullRegular spec fullAnswer.end_
            (matchCount + 1) (fullNodes ++ fullAnswer.nodes)).result _ fullRest
          rcases follows.succeeds type with ⟨-, ends⟩ | ⟨ends, strong⟩
          · have later := ih answer empty fullAnswer.end_ _ within (.inl ends.symm) laterAsks
              earlyRest fullRest
            exact later.before fun _ _ other => absurd ends.symm other
          · have later := ih answer empty fullAnswer.end_ _ within (.inr ends) laterAsks
              earlyRest fullRest
            exact later.before fun inLook _ _ success =>
              le_trans ((strong inLook).2 rfl) (lateRegular.forward success)
        · -- the strict run has stopped; the lenient run is at the end of `u`
          rcases follows.succeeds type with ⟨fullSuccess, ends⟩ | ⟨ends, strong⟩
          · exact absurd ⟨fullSuccess, by omega⟩ further
          · have notLook : look ≠ true := fun inLook => by
              obtain ⟨fullSuccess, beyond⟩ := strong inLook
              exact further ⟨fullSuccess, lt_of_lt_of_le (by omega) (beyond rfl)⟩
            rw [parseRepetition_atEnd ends.ge] at earlyRest
            obtain rfl := some.inj earlyRest
            by_cases enough : spec.Enough (matchCount + 1)
            · rw [repetitionEnd_enough enough]
              exact .outside notLook (by simp) fun _ => ends
            · rw [repetitionEnd_few enough, if_pos ⟨ends.ge, rfl⟩]
              exact .needMore rfl
  | case3 pos matchCount nodes stopped =>
    by_cases before : pos < u.length
    · obtain rfl : pos = q := meets.resolve_right (by omega)
      rw [parseRepetition, if_neg stopped] at fullRuns
      obtain rfl := some.inj earlyRuns
      obtain rfl := some.inj fullRuns
      exact repetitionEnd_follows before
    · have ended : pos = u.length := by omega
      subst ended
      rw [← parseRepetition_atEnd (le_refl _)] at earlyRuns
      exact parseRepetition_frontier agree earlyRuns fullRuns

theorem oneChild_follows (agree : Agree u w look asked early full) {id : ParserId} {p q : Nat}
    {finish fullFinish : ParseResult → ParseResult} (inside : p ≤ u.length) (meets : Meets u p q)
    (asks : asked ⟨id, p⟩)
    (finishes : ∀ answer, (finish answer).type = answer.type ∧ (finish answer).end_ = answer.end_)
    (fullFinishes : ∀ answer, (fullFinish answer).type = answer.type ∧
      (fullFinish answer).end_ = answer.end_)
    (earlyRuns : (Asking.ask ⟨id, p⟩ fun answer => .done (finish answer) : Exec).run early =
      some earlyResult)
    (fullRuns : (Asking.ask ⟨id, q⟩ fun answer => .done (fullFinish answer) : Exec).run full =
      some fullResult) : Follows u look p q earlyResult fullResult := by
  obtain ⟨answer, answered, earlyRest⟩ := Asking.run_ask_some earlyRuns
  obtain ⟨fullAnswer, fullAnswered, fullRest⟩ := Asking.run_ask_some fullRuns
  obtain rfl := some.inj earlyRest
  obtain rfl := some.inj fullRest
  have follows := agree.follows id p q answer fullAnswer asks inside meets answered fullAnswered
  exact follows.of_eq (finishes answer).1 (finishes answer).2 (fullFinishes fullAnswer).1
    (fullFinishes fullAnswer).2

end Children

/-! ## Every parser -/

def Parser.isLookahead : Parser → Bool
  | .and _ => true
  | .not _ => true
  | _ => false

/-- The end of `u` does not mislead a parser that begins at `pos`:
* `start` and `end` do not take it for an end of the text, other than an `end` outside
  lookaheads;
* `chars` does not stop at a code point cut there that it takes on `w`;
* `until` does not stop at a delimiter cut there that is none on `w`. -/
def Parser.Undisturbed (u w : List Byte) (look : Bool) (pos : Nat) : Parser → Prop
  | .start => pos < u.length ∨ (u = [] ∧ look = false)
  | .end_ => pos < u.length ∨ look = false
  | .chars _ ranges negated minCount maxCount =>
    let spec : CharsSpec := ⟨ranges, negated, minCount.toInt, maxCount.toInt⟩
    let early := parseChars spec true u pos pos 0
    early.type = .success → early.end_ < u.length →
      parseUtf8Codepoint u early.end_ = .incomplete →
      (parseChars spec false w pos pos 0).end_ = early.end_
  | .until_ delimiters =>
    let early := parseUntil (trieOf delimiters) true u pos pos
    early.type = .success → (trieOf delimiters).checkAt u early.end_ = .partialMatch →
      (trieOf delimiters).checkAt w early.end_ ≠ .noMatch
  | _ => True

section Executor

variable {arena : Arena} {u w : List Byte} {look : Bool} {asked : Site → Prop}
  {early full : Site → Option ParseResult} {earlyResult fullResult : ParseResult}

theorem parserExecutor_follows (isPrefix : u <+: w) (parser : Parser) {p q : Nat}
    (agree : Agree u w (look || parser.isLookahead) asked early full) (inside : p ≤ u.length)
    (meets : Meets u p q) (undisturbed : parser.Undisturbed u w look p)
    (asks : ∀ site, (parserExecutor arena true u p parser).Asks early site → asked site)
    (earlyRuns : (parserExecutor arena true u p parser).run early = some earlyResult)
    (fullRuns : (parserExecutor arena false w q parser).run full = some fullResult) :
    Follows u look p q earlyResult fullResult := by
  have longer := isPrefix.length_le
  have kept : ∀ answer : ParseResult, answer.type = answer.type ∧ answer.end_ = answer.end_ :=
    fun _ => ⟨rfl, rfl⟩
  cases parser with
  | epsilon =>
    obtain rfl := some.inj earlyRuns
    obtain rfl := some.inj fullRuns
    rcases meets with rfl | ended
    · exact .same rfl rfl rfl
    · exact .atEnd rfl rfl ended fun same => ended ▸ same.le
  | start =>
    obtain rfl := some.inj earlyRuns
    obtain rfl := some.inj fullRuns
    rcases undisturbed with before | ⟨empty, notLook⟩
    · obtain rfl : p = q := meets.resolve_right (by omega)
      exact .of_needMore_or_eq (.inr rfl)
    · have atStart : p = 0 := by simpa [empty] using inside
      simp only [atStart]
      exact .outside (by simp [notLook]) (by simp) fun _ => by simp [empty]
  | end_ =>
    obtain rfl := some.inj earlyRuns
    obtain rfl := some.inj fullRuns
    by_cases before : p < u.length
    · obtain rfl : p = q := meets.resolve_right (by omega)
      rw [if_neg (by omega), if_neg (by omega)]
      exact .fail rfl rfl
    · have notLook := undisturbed.resolve_left before
      rw [if_pos (not_lt.mp before)]
      exact .outside (by simp [notLook]) (by simp) fun _ => by simp only; omega
  | literal literal =>
    obtain rfl := some.inj earlyRuns
    obtain rfl := some.inj fullRuns
    rcases meets with rfl | ended
    · exact .of_needMore_or_eq (parseLiteral_isPrefix isPrefix p _ p)
    · subst ended
      refine .frontier (parseLiteral_regular _) ?_
      rcases parseLiteral_atEnd u.length (bytesOf literal) with more | ⟨empty, -⟩
      · exact .inl more
      · rw [empty]
        exact .inr ⟨rfl, rfl, rfl⟩
  | sequence children =>
    simp only [Parser.isLookahead, Bool.or_false] at agree
    exact parseSequence_follows agree p q children p q [] [] inside meets asks earlyRuns fullRuns
  | choice children =>
    simp only [Parser.isLookahead, Bool.or_false] at agree
    exact parseChoice_follows agree children p q inside meets asks earlyRuns fullRuns
  | repetition child minCount maxCount =>
    simp only [Parser.isLookahead, Bool.or_false] at agree
    exact parseRepetition_follows agree longer _ p q p q 0 [] [] inside meets asks earlyRuns
      fullRuns
  | and child =>
    simp only [Parser.isLookahead, Bool.or_true] at agree
    obtain ⟨answer, answered, earlyRest⟩ := Asking.run_ask_some earlyRuns
    obtain ⟨fullAnswer, fullAnswered, fullRest⟩ := Asking.run_ask_some fullRuns
    obtain rfl := some.inj earlyRest
    obtain rfl := some.inj fullRest
    have follows := agree.follows child p q answer fullAnswer (asks _ (.head _ _)) inside meets
      answered fullAnswered
    refine ⟨follows.fails, fun success => ?_⟩
    have fullSuccess := follows.success_inLook success
    rcases meets with rfl | ended
    · exact .inl ⟨fullSuccess, rfl⟩
    · exact .inr ⟨ended, fun _ => ⟨fullSuccess, fun same => ended ▸ same.le⟩⟩
  | not child =>
    simp only [Parser.isLookahead, Bool.or_true] at agree
    obtain ⟨answer, answered, earlyRest⟩ := Asking.run_ask_some earlyRuns
    obtain ⟨fullAnswer, fullAnswered, fullRest⟩ := Asking.run_ask_some fullRuns
    have follows := agree.follows child p q answer fullAnswer (asks _ (.head _ _)) inside meets
      answered fullAnswered
    cases type : answer.type with
    | fail =>
      simp only [type] at earlyRest
      simp only [follows.fails type] at fullRest
      obtain rfl := some.inj earlyRest
      obtain rfl := some.inj fullRest
      rcases meets with rfl | ended
      · exact .same rfl rfl rfl
      · exact .atEnd rfl rfl ended fun same => ended ▸ same.le
    | needMoreInput =>
      simp only [type] at earlyRest
      obtain rfl := some.inj earlyRest
      exact .needMore rfl
    | success =>
      simp only [type] at earlyRest
      simp only [follows.success_inLook type] at fullRest
      obtain rfl := some.inj earlyRest
      obtain rfl := some.inj fullRest
      exact .fail rfl rfl
  | any =>
    obtain rfl := some.inj earlyRuns
    obtain rfl := some.inj fullRuns
    rcases meets with rfl | ended
    · exact .of_needMore_or_eq (parseAny_isPrefix isPrefix p)
    · subst ended
      exact .needMore parseAny_atEnd
  | space =>
    obtain rfl := some.inj earlyRuns
    obtain rfl := some.inj fullRuns
    rcases meets with rfl | ended
    · exact parseSpace_follows isPrefix p p p inside
    · subst ended
      refine .frontier parseSpace_regular (.inr ?_)
      rw [parseSpace_atEnd]
      exact ⟨rfl, rfl, parseSpace_success w q q⟩
  | chars pattern ranges negated minCount maxCount =>
    obtain rfl := some.inj earlyRuns
    obtain rfl := some.inj fullRuns
    rcases meets with rfl | ended
    · exact parseChars_follows isPrefix _ p p p 0 inside undisturbed
    · subst ended
      refine .frontier parseChars_regular ?_
      rcases parseChars_atEnd (le_refl u.length) with more | ⟨enough, stops⟩
      · exact .inl more
      · rw [stops]
        exact .inr ⟨rfl, rfl, parseChars_enough enough⟩
  | string delimiter =>
    obtain rfl := some.inj earlyRuns
    obtain rfl := some.inj fullRuns
    rcases meets with rfl | ended
    · exact .of_needMore_or_eq (parseString_isPrefix isPrefix _ p p)
    · subst ended
      exact .needMore (parseString_atEnd _ _)
  | until_ delimiters =>
    obtain rfl := some.inj earlyRuns
    obtain rfl := some.inj fullRuns
    rcases meets with rfl | ended
    · exact .of_needMore_or_eq (parseUntil_isPrefix isPrefix _ p p inside undisturbed)
    · subst ended
      exact .needMore (parseUntil_atEnd _ _)
  | schema child name schema raw =>
    simp only [Parser.isLookahead, Bool.or_false] at agree
    exact oneChild_follows agree inside meets (asks _ (.head _ _)) kept kept earlyRuns fullRuns
  | rule name child trigger =>
    simp only [Parser.isLookahead, Bool.or_false] at agree
    exact oneChild_follows agree inside meets (asks _ (.head _ _)) (addNode_type name "")
      (addNode_type name "") earlyRuns fullRuns
  | ref name =>
    simp only [Parser.isLookahead, Bool.or_false] at agree
    simp only [parserExecutor] at asks earlyRuns fullRuns
    cases found : arena.getRule name with
    | none =>
      simp only [found] at earlyRuns
      cases earlyRuns
    | some id =>
      simp only [found] at asks earlyRuns fullRuns
      exact oneChild_follows agree inside meets (asks _ (.head _ _)) kept kept earlyRuns fullRuns
  | atomic child =>
    simp only [Parser.isLookahead, Bool.or_false] at agree
    have cleared : ∀ answer : ParseResult,
        (if answer.type = .needMoreInput then { answer with nodes := [] } else answer).type =
          answer.type ∧
        (if answer.type = .needMoreInput then { answer with nodes := [] } else answer).end_ =
          answer.end_ := by
      intro answer
      split_ifs
      · exact ⟨rfl, rfl⟩
      · exact ⟨rfl, rfl⟩
    exact oneChild_follows agree inside meets (asks _ (.head _ _)) cleared cleared earlyRuns fullRuns
  | tag child tag =>
    simp only [Parser.isLookahead, Bool.or_false] at agree
    exact oneChild_follows agree inside meets (asks _ (.head _ _)) (addNode_type "" tag)
      (addNode_type "" tag) earlyRuns fullRuns
  | gbnf child grammar =>
    simp only [Parser.isLookahead, Bool.or_false] at agree
    exact oneChild_follows agree inside meets (asks _ (.head _ _)) kept kept earlyRuns fullRuns

end Executor

/-! ## Whole parses -/

/-- The parsers that the lenient parse of `u` begins at positions, and whether inside a
lookahead. -/
inductive Arena.Visits (arena : Arena) (u : List Byte) : Bool → Site → Prop
  | root : arena.Visits u false ⟨arena.root, 0⟩
  | call {look : Bool} {site asked : Site} {parser : Parser} :
      arena.Visits u look site → arena.parsers[site.id.toNat]? = some parser →
      arena.Calls true u site asked → arena.Visits u (look || parser.isLookahead) asked

/-- No parser that the lenient parse of `u` begins is misled by the end of `u`. -/
def Arena.Undisturbed (arena : Arena) (u w : List Byte) : Prop :=
  ∀ look site parser, arena.Visits u look site → arena.parsers[site.id.toNat]? = some parser →
    parser.Undisturbed u w look site.pos

theorem parseAt_follows {arena : Arena} {u w : List Byte} (isPrefix : u <+: w)
    (undisturbed : arena.Undisturbed u w) (fuel more : Nat) (look : Bool) (site : Site) (q : Nat)
    (early full : ParseResult) (visited : arena.Visits u look site) (inside : site.pos ≤ u.length)
    (meets : Meets u site.pos q) (earlyRuns : arena.parseAt true u fuel site = some early)
    (fullRuns : arena.parseAt false w more ⟨site.id, q⟩ = some full) :
    Follows u look site.pos q early full := by
  induction fuel generalizing more look site q early full with
  | zero => cases earlyRuns
  | succ fuel ih =>
    cases more with
    | zero => cases fullRuns
    | succ more =>
      have earlyTree : (arena.execute true u site).run (arena.parseAt true u fuel) =
          some early := earlyRuns
      have fullTree : (arena.execute false w ⟨site.id, q⟩).run (arena.parseAt false w more) =
          some full := fullRuns
      unfold Arena.execute at earlyTree fullTree
      cases found : arena.parsers[site.id.toNat]? with
      | none =>
        rw [found] at earlyTree
        cases earlyTree
      | some parser =>
        rw [found] at earlyTree fullTree
        have agree : Agree u w (look || parser.isLookahead) (arena.Calls true u site)
            (arena.parseAt true u fuel) (arena.parseAt false w more) :=
          ⟨fun id p r earlyResult fullResult called within meeting answered fullAnswered =>
              ih more _ ⟨id, p⟩ r earlyResult fullResult (visited.call found called) within
                meeting answered fullAnswered,
            parseAt_regular arena true u fuel, parseAt_regular arena false w more⟩
        refine parserExecutor_follows isPrefix parser agree inside meets
          (undisturbed look site parser visited found) (fun asked asks => ⟨fuel, ?_⟩) earlyTree
          fullTree
        unfold Arena.execute
        rw [found]
        exact asks

/-! ## The same text -/

section SameText

variable {arena : Arena} {text : List Byte} {startPos : Nat}
  {early full : Site → Option ParseResult} {result : ParseResult}

section

variable (answers : ∀ site result, early site = some result → result.type ≠ .needMoreInput → full site = some result)
include answers

theorem parseSequence_strict (children : List ParserId) (pos : Nat) (nodes : List AstNode)
    (runs : (parseSequence startPos children pos nodes).run early = some result)
    (decided : result.type ≠ .needMoreInput) :
    (parseSequence startPos children pos nodes).run full = some result := by
  induction children generalizing pos nodes with
  | nil => exact runs
  | cons child rest ih =>
    obtain ⟨answer, answered, later⟩ := Asking.run_ask_some runs
    cases type : answer.type with
    | needMoreInput =>
      simp only [type] at later
      obtain rfl := some.inj later
      exact absurd rfl decided
    | fail =>
      simp only [parseSequence, Asking.run_ask, answers _ _ answered (by simp [type]),
        bind_some]
      simp only [type] at later ⊢
      exact later
    | success =>
      simp only [parseSequence, Asking.run_ask, answers _ _ answered (by simp [type]),
        bind_some]
      simp only [type] at later ⊢
      exact ih answer.end_ _ later

theorem parseChoice_strict (children : List ParserId)
    (runs : (parseChoice startPos children).run early = some result)
    (decided : result.type ≠ .needMoreInput) :
    (parseChoice startPos children).run full = some result := by
  induction children with
  | nil => exact runs
  | cons child rest ih =>
    obtain ⟨answer, answered, later⟩ := Asking.run_ask_some runs
    by_cases failed : answer.type = .fail
    · rw [if_neg (not_not.mpr failed)] at later
      simp only [parseChoice, Asking.run_ask, answers _ _ answered (by simp [failed]),
        bind_some, if_neg (not_not.mpr failed)]
      exact ih later
    · rw [if_pos failed] at later
      obtain rfl := some.inj later
      simp only [parseChoice, Asking.run_ask, answers _ _ answered decided, bind_some,
        if_pos failed, Asking.run_done]

end

theorem repetitionEnd_strict {spec : RepetitionSpec} {pos matchCount : Nat} {nodes : List AstNode}
    (decided : (repetitionEnd spec true text startPos pos matchCount nodes).type ≠ .needMoreInput) :
    repetitionEnd spec false text startPos pos matchCount nodes =
      repetitionEnd spec true text startPos pos matchCount nodes := by
  by_cases enough : spec.Enough matchCount
  · rw [repetitionEnd_enough enough, repetitionEnd_enough enough]
  · rw [repetitionEnd_few enough] at decided ⊢
    rw [repetitionEnd_few enough, if_neg (by simp)]
    by_cases beyond : text.length ≤ pos
    · rw [if_pos ⟨beyond, rfl⟩] at decided
      exact absurd rfl decided
    · rw [if_neg fun both => beyond both.1]

section

variable (answers : ∀ site result, early site = some result → result.type ≠ .needMoreInput → full site = some result)
include answers

theorem parseRepetition_strict (spec : RepetitionSpec) (pos matchCount : Nat) (nodes : List AstNode)
    (runs : (parseRepetition spec true text startPos pos matchCount nodes).run early = some result)
    (decided : result.type ≠ .needMoreInput) :
    (parseRepetition spec false text startPos pos matchCount nodes).run full = some result := by
  fun_induction parseRepetition spec true text startPos pos matchCount nodes with
  | case1 pos matchCount nodes more beyond =>
    obtain rfl := some.inj runs
    rw [parseRepetition, if_pos more, if_pos beyond, repetitionEnd_strict decided]
    rfl
  | case2 pos matchCount nodes more before ih =>
    obtain ⟨answer, answered, later⟩ := Asking.run_ask_some runs
    rw [parseRepetition, if_pos more, if_neg before]
    cases type : answer.type with
    | needMoreInput =>
      simp only [type] at later
      obtain rfl := some.inj later
      exact absurd rfl decided
    | fail =>
      simp only [Asking.run_ask, answers _ _ answered (by simp [type]), bind_some]
      simp only [type] at later ⊢
      obtain rfl := some.inj later
      rw [repetitionEnd_strict decided]
      rfl
    | success =>
      simp only [Asking.run_ask, answers _ _ answered (by simp [type]), bind_some]
      simp only [type] at later ⊢
      split_ifs at later ⊢ with empty
      · obtain rfl := some.inj later
        rw [repetitionEnd_strict decided]
        rfl
      · exact ih answer empty later
  | case3 pos matchCount nodes stopped =>
    obtain rfl := some.inj runs
    rw [parseRepetition, if_neg stopped, repetitionEnd_strict decided]
    rfl

theorem oneChild_strict {site : Site} {finish : ParseResult → ParseResult}
    (passes : ∀ answer, answer.type = .needMoreInput → (finish answer).type = .needMoreInput)
    (runs : (Asking.ask site fun answer => .done (finish answer) : Exec).run early = some result)
    (decided : result.type ≠ .needMoreInput) :
    (Asking.ask site fun answer => .done (finish answer) : Exec).run full = some result := by
  obtain ⟨answer, answered, later⟩ := Asking.run_ask_some runs
  obtain rfl := some.inj later
  have answerDecided : answer.type ≠ .needMoreInput := fun more => decided (passes answer more)
  rw [Asking.run_ask, answers _ _ answered answerDecided]
  rfl

theorem parserExecutor_strict (parser : Parser)
    (runs : (parserExecutor arena true text startPos parser).run early = some result)
    (decided : result.type ≠ .needMoreInput) :
    (parserExecutor arena false text startPos parser).run full = some result := by
  have refl : text <+: text := List.prefix_refl text
  cases parser with
  | epsilon | start | end_ | space => exact runs
  | literal literal =>
    obtain rfl := some.inj runs
    exact congrArg some ((parseLiteral_isPrefix refl _ _ _).resolve_left decided)
  | sequence children => exact parseSequence_strict answers children startPos [] runs decided
  | choice children => exact parseChoice_strict answers children runs decided
  | repetition child minCount maxCount =>
    exact parseRepetition_strict answers _ startPos 0 [] runs decided
  | not child =>
    obtain ⟨answer, answered, later⟩ := Asking.run_ask_some runs
    cases type : answer.type with
    | needMoreInput =>
      simp only [type] at later
      obtain rfl := some.inj later
      exact absurd rfl decided
    | fail =>
      simp only [parserExecutor, Asking.run_ask, answers _ _ answered (by simp [type]),
        bind_some]
      simp only [type] at later ⊢
      exact later
    | success =>
      simp only [parserExecutor, Asking.run_ask, answers _ _ answered (by simp [type]),
        bind_some]
      simp only [type] at later ⊢
      exact later
  | any =>
    obtain rfl := some.inj runs
    exact congrArg some ((parseAny_isPrefix refl _).resolve_left decided)
  | chars pattern ranges negated minCount maxCount =>
    obtain rfl := some.inj runs
    exact congrArg some (parseChars_strict decided)
  | string delimiter =>
    obtain rfl := some.inj runs
    exact congrArg some ((parseString_isPrefix refl _ _ _).resolve_left decided)
  | until_ delimiters =>
    obtain rfl := some.inj runs
    by_cases inside : startPos ≤ text.length
    · have uncut : (parseUntil (trieOf delimiters) true text startPos startPos).type = .success →
          (trieOf delimiters).checkAt text
            (parseUntil (trieOf delimiters) true text startPos startPos).end_ = .partialMatch →
          (trieOf delimiters).checkAt text
            (parseUntil (trieOf delimiters) true text startPos startPos).end_ ≠ .noMatch :=
        fun _ cut => by simp [cut]
      exact congrArg some ((parseUntil_isPrefix refl _ _ _ inside uncut).resolve_left decided)
    · have stops : ∀ lenient, parseUntil (trieOf delimiters) lenient text startPos startPos =
          ⟨.success, startPos, startPos, []⟩ := by
        intro lenient
        rw [parseUntil_eq, if_neg (by omega), if_neg fun both => inside both.1.le]
      exact congrArg some ((stops false).trans (stops true).symm)
  | and child => exact oneChild_strict answers (fun _ more => more) runs decided
  | schema child | gbnf child => exact oneChild_strict answers (fun _ more => more) runs decided
  | rule name child =>
    exact oneChild_strict answers (fun answer more => (addNode_type name "" answer).1.trans more)
      runs decided
  | tag child tag =>
    exact oneChild_strict answers (fun answer more => (addNode_type "" tag answer).1.trans more)
      runs decided
  | atomic child =>
    refine oneChild_strict answers (fun answer more => ?_) runs decided
    rw [if_pos more]
    exact more
  | ref name =>
    simp only [parserExecutor] at runs ⊢
    cases found : arena.getRule name with
    | none =>
      simp only [found] at runs
      cases runs
    | some id =>
      simp only [found] at runs
      exact oneChild_strict answers (fun _ more => more) runs decided

end

theorem parseAt_strict (fuel : Nat) (site : Site)
    (runs : arena.parseAt true text fuel site = some result)
    (decided : result.type ≠ .needMoreInput) :
    arena.parseAt false text fuel site = some result := by
  induction fuel generalizing site result with
  | zero => cases runs
  | succ fuel ih =>
    have earlyTree : (arena.execute true text site).run (arena.parseAt true text fuel) =
        some result := runs
    change (arena.execute false text site).run (arena.parseAt false text fuel) = some result
    unfold Arena.execute at earlyTree ⊢
    cases found : arena.parsers[site.id.toNat]? with
    | none =>
      rw [found] at earlyTree
      cases earlyTree
    | some parser =>
      rw [found] at earlyTree
      exact parserExecutor_strict (fun site result => ih site) parser earlyTree decided

end SameText

/-- When a text parses, the lenient parse of each of its prefixes returns and does not fail,
unless the end of the prefix misleads a parser; the whole text never does. -/
theorem lenient_prefix_not_fail (arena : Arena) (closed : arena.Closed)
    (acyclic : arena.NoLeftRecursion) (u w : List Byte) (isPrefix : u <+: w)
    (undisturbed : u ≠ w → arena.Undisturbed u w) (full : ParseResult)
    (parses : arena.Parses false w full) (accepts : full.type = .success) :
    ∃ early, arena.Parses true u early ∧ early.type ≠ .fail := by
  obtain ⟨more, fullRuns⟩ := parses
  have rooted : arena.root ≠ invalidParserId := by
    intro none_
    rw [Arena.parse, if_pos none_] at fullRuns
    cases fullRuns
  rw [Arena.parse, if_neg rooted] at fullRuns
  have known : arena.root.toNat < arena.parsers.length := by
    by_contra outside
    cases more with
    | zero => cases fullRuns
    | succ more =>
      have tree : (arena.execute false w ⟨arena.root, 0⟩).run (arena.parseAt false w more) =
          some full := fullRuns
      unfold Arena.execute at tree
      rw [List.getElem?_eq_none (not_lt.mp outside)] at tree
      cases tree
  have inside : (⟨arena.root, 0⟩ : Site) ∈ arena.sites u := ⟨known, Nat.zero_le _⟩
  obtain ⟨early, fuel, earlyRuns⟩ := Arena.exists_parseAt closed acyclic true u inside
  refine ⟨early, ⟨fuel, by rw [Arena.parse, if_neg rooted]; exact earlyRuns⟩, fun failed => ?_⟩
  have fails : full.type = .fail := by
    by_cases whole : u = w
    · subst whole
      have strictRuns := parseAt_strict fuel ⟨arena.root, 0⟩ earlyRuns (by simp [failed])
      have same : full = early := Asking.Evaluates.unique ⟨more, fullRuns⟩ ⟨fuel, strictRuns⟩
      rw [same]
      exact failed
    · exact (parseAt_follows isPrefix (undisturbed whole) fuel more false ⟨arena.root, 0⟩ 0 early full
        .root (Nat.zero_le _) (.inl rfl) earlyRuns fullRuns).fails failed
  rw [accepts] at fails
  cases fails

theorem Arena.Visits.look_eq_false {arena : Arena} {u : List Byte}
    (plain : ∀ parser ∈ arena.parsers, parser.isLookahead = false) {look : Bool} {site : Site}
    (visited : arena.Visits u look site) : look = false := by
  induction visited with
  | root => rfl
  | call _ found _ ih => rw [ih, plain _ (List.mem_of_getElem? found), Bool.or_false]

def literalThenEnd : Arena where
  parsers := [.literal "ab", .end_, .sequence [0, 1]]
  rules := []
  root := 2

theorem literalThenEnd_backward : literalThenEnd.Backward := by
  intro i parser found
  match i, found with
  | 0, found | 1, found | 2, found =>
    obtain rfl := some.inj found
    exact ⟨by simp, by simp [Parser.children]⟩

theorem lenient_prefix_not_fail_at_literalThenEnd :
    ∃ early, literalThenEnd.Parses true (bytesOf "a") early ∧ early.type ≠ .fail := by
  have plain : ∀ parser ∈ literalThenEnd.parsers, parser.isLookahead = false := by
    simp [literalThenEnd, Parser.isLookahead]
  have undisturbed : literalThenEnd.Undisturbed (bytesOf "a") (bytesOf "ab") := by
    intro look site parser visited found
    have member := List.mem_of_getElem? found
    simp only [literalThenEnd, List.mem_cons, List.not_mem_nil, or_false] at member
    rcases member with rfl | rfl | rfl
    · trivial
    · exact .inr (visited.look_eq_false plain)
    · trivial
  have parses : (literalThenEnd.parse false (bytesOf "ab") 2).map (·.type) = some .success := by
    decide +kernel
  obtain ⟨full, runs, accepts⟩ := map_eq_some_iff.mp parses
  exact lenient_prefix_not_fail literalThenEnd literalThenEnd_backward.closed
    literalThenEnd_backward.noLeftRecursion (bytesOf "a") (bytesOf "ab") (by decide +kernel)
    (fun _ => undisturbed) full ⟨2, runs⟩ accepts

/-- A parse returns in both modes.  The strict one decides, inside the input, and agrees with the
lenient one unless that asks for more. -/
theorem parse_decided (arena : Arena) (closed : arena.Closed) (acyclic : arena.NoLeftRecursion)
    (some_ : arena.root ≠ invalidParserId) (inside : arena.root.toNat < arena.parsers.length)
    (text : List Byte) :
    ∃ early full, arena.Parses true text early ∧ arena.Parses false text full ∧
      full.type ≠ .needMoreInput ∧ (full.type = .success → full.end_ ≤ text.length) ∧
      (early.type ≠ .needMoreInput → full = early) := by
  have site : (⟨arena.root, 0⟩ : Site) ∈ arena.sites text := ⟨inside, Nat.zero_le _⟩
  obtain ⟨early, fuel, earlyRuns⟩ := Arena.exists_parseAt closed acyclic true text site
  obtain ⟨full, more, fullRuns⟩ := Arena.exists_parseAt closed acyclic false text site
  have regular := parseAt_regular arena false text more _ full fullRuns
  refine ⟨early, full, ⟨fuel, by rwa [Arena.parse, if_neg some_]⟩,
    ⟨more, by rwa [Arena.parse, if_neg some_]⟩, fun asks => Bool.noConfusion (regular.decided asks),
    fun success => regular.inside success (Nat.zero_le _), fun decided => ?_⟩
  exact Asking.Evaluates.unique ⟨more, fullRuns⟩ ⟨fuel, parseAt_strict fuel _ earlyRuns decided⟩

theorem parse_decided_at_literalThenEnd :
    ∃ early full, literalThenEnd.Parses true (bytesOf "abc") early ∧
      literalThenEnd.Parses false (bytesOf "abc") full ∧ full.type ≠ .needMoreInput ∧
      (full.type = .success → full.end_ ≤ (bytesOf "abc").length) ∧
      (early.type ≠ .needMoreInput → full = early) :=
  parse_decided literalThenEnd literalThenEnd_backward.closed
    literalThenEnd_backward.noLeftRecursion (by decide) (by decide) _

def untilThenEnd : Arena where
  parsers := [.until_ ["ab"], .end_, .sequence [0, 1]]
  rules := []
  root := 2

theorem untilThenEnd_backward : untilThenEnd.Backward := by
  intro i parser found
  match i, found with
  | 0, found | 1, found | 2, found =>
    obtain rfl := some.inj found
    exact ⟨by simp, by simp [Parser.children]⟩

/-- On "xay" the parser succeeds, but on "xa" the delimiter is cut: `until` succeeds before
the "a" and `end` fails. -/
theorem not_lenient_prefix_not_fail :
    ¬ ∀ (arena : Arena) (u w : List Byte) (full : ParseResult), arena.Closed →
      arena.NoLeftRecursion → u <+: w → arena.Parses false w full → full.type = .success →
      full.end_ = w.length → ∃ early, arena.Parses true u early ∧ early.type ≠ .fail := by
  intro claim
  have whole : (untilThenEnd.parse false (bytesOf "xay") 2).map
      (fun result => (result.type, result.end_)) = some (.success, 3) := by decide +kernel
  have cut : (untilThenEnd.parseAt true (bytesOf "xa") 2 ⟨2, 0⟩).map (·.type) = some .fail := by
    decide +kernel
  obtain ⟨full, fullRuns, accepts⟩ := map_eq_some_iff.mp whole
  obtain ⟨success, ends⟩ := Prod.mk.inj accepts
  obtain ⟨failed, failedRuns, fails⟩ := map_eq_some_iff.mp cut
  obtain ⟨early, ⟨fuel, runs⟩, notFail⟩ := claim untilThenEnd (bytesOf "xa") (bytesOf "xay") full
    untilThenEnd_backward.closed untilThenEnd_backward.noLeftRecursion (by decide +kernel)
    ⟨2, fullRuns⟩ success (ends.trans (by decide +kernel))
  have same : early = failed := Asking.Evaluates.unique ⟨fuel, runs⟩ ⟨2, failedRuns⟩
  rw [same] at notFail
  exact notFail fails

end LlamaCpp.Peg
