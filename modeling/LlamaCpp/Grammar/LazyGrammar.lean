import LlamaCpp.Grammar.ReplayPieces

/-!
# Lazy grammars

A lazy grammar takes tokens without looking at them until one is a trigger token or a trigger
pattern matches the text so far.  The tokens that overlap with what follows the start of the
match are then replayed.  `replay_accepts_text` compares the replay with accepting that text
as one string.
-/

set_option autoImplicit false

namespace LlamaCpp.Grammar

open LlamaCpp.Lib List

structure TriggerEnv where
  triggerTokens : List Nat
  triggerPatterns : List (List Byte → Option Nat)
  tokenToPiece : Nat → List Byte
  tokenIsEog : Nat → Bool

/-- The fields of `llama_grammar` that change; a buffered token comes with the start and the
end of its piece. -/
structure LazyGrammar where
  grammar : GrammarState
  awaitingTrigger : Bool
  triggerBuffer : List Byte
  triggerBufferPositions : List (Nat × Nat × Nat)
deriving DecidableEq

/-- How `llama_grammar_accept_impl` ends; a `substr` behind the end of the buffer throws too. -/
inductive ImplResult
  | returned (state : LazyGrammar)
  | threw (state : LazyGrammar) (message : List Byte)
  | outOfRange (state : LazyGrammar)
deriving DecidableEq

def LazyGrammar.write (state : LazyGrammar) : AcceptResult → ImplResult
  | .returned grammar => .returned { state with grammar }
  | .threw grammar message => .threw { state with grammar } message

def LazyGrammar.bufferToken (state : LazyGrammar) (token : Nat) (piece : List Byte) : LazyGrammar :=
  { state with
    triggerBuffer := state.triggerBuffer ++ piece
    triggerBufferPositions := state.triggerBufferPositions ++
      [(token, state.triggerBuffer.length, state.triggerBuffer.length + piece.length)] }

def firstMatch (patterns : List (List Byte → Option Nat)) (buffer : List Byte) : Option Nat :=
  patterns.findSome? fun find => find buffer

/-- The loop over the buffered tokens that overlap with what follows `start`. -/
def replay (rules : Rules) (fuel : Nat) (buffer : List Byte) (start : Nat) :
    List (Nat × Nat × Nat) → GrammarState → Outcome AcceptResult
  | [], grammar => .done (.returned grammar)
  | (tok, tokStart, tokEnd) :: rest, grammar =>
    if tokEnd ≤ start then replay rules fuel buffer start rest grammar
    else
      let pieceStart := if tokStart < start then start else tokStart
      let tokPiece := (buffer.drop pieceStart).take (tokEnd - pieceStart)
      (acceptToken rules fuel tok tokPiece grammar).bind fun result =>
        result.andThen (replay rules fuel buffer start rest)

def acceptImpl (rules : Rules) (env : TriggerEnv) (fuel token : Nat) (state : LazyGrammar) :
    Outcome ImplResult :=
  let piece := env.tokenToPiece token
  if state.awaitingTrigger then
    if token ∈ env.triggerTokens then
      (acceptToken rules fuel token piece state.grammar).bind fun result =>
        .done (LazyGrammar.write { state with awaitingTrigger := false, triggerBuffer := [] } result)
    else
      let buffered := state.bufferToken token piece
      match firstMatch env.triggerPatterns buffered.triggerBuffer with
      | some start =>
        (replay rules fuel buffered.triggerBuffer start buffered.triggerBufferPositions
            state.grammar).bind fun result =>
          -- what throws leaves the buffer as it is
          let triggered := { buffered with awaitingTrigger := false }
          match result with
          | .returned grammar =>
            .done (if buffered.triggerBuffer.length < start then .outOfRange { triggered with grammar }
              else .returned ⟨grammar, false, [], []⟩)
          | .threw grammar message => .done (.threw { triggered with grammar } message)
      | none => .done (.returned buffered)
  else if env.tokenIsEog token then
    if [] ∈ state.grammar.grammarStacks then .done (.returned state) else .aborted
  else
    (acceptToken rules fuel token piece state.grammar).bind fun result =>
      .done (state.write result)

def acceptStr (rules : Rules) (fuel : Nat) (piece : List Byte) (grammar : GrammarState) :
    Outcome AcceptResult :=
  (acceptAll rules fuel (codePointsOf piece grammar.partialUtf8) grammar.grammarStacks).bind
    fun stacksNew =>
      let state := ⟨stacksNew, (decodeUtf8 piece grammar.partialUtf8).2⟩
      .done (if stacksNew = [] then
          .threw state (utf8Bytes "Unexpected empty grammar stack after accepting piece: " ++ piece)
        else .returned state)

def positionsFrom : Nat → List (Nat × List Byte) → List (Nat × Nat × Nat)
  | _, [] => []
  | offset, (token, piece) :: rest =>
    (token, offset, offset + piece.length) :: positionsFrom (offset + piece.length) rest

theorem positionsFrom_append (offset : Nat) (pieces : List (Nat × List Byte)) (token : Nat)
    (piece : List Byte) :
    positionsFrom offset (pieces ++ [(token, piece)]) =
      positionsFrom offset pieces ++ [(token, offset + (textOf pieces).length,
        offset + (textOf pieces).length + piece.length)] := by
  induction pieces generalizing offset with
  | nil => rfl
  | cons first rest ih =>
    obtain ⟨before, front⟩ := first
    have split_ : textOf ((before, front) :: rest) = front ++ textOf rest := rfl
    rw [cons_append, positionsFrom, positionsFrom, ih, split_, length_append,
      cons_append, add_assoc offset]

/-- The tokens that the grammar has buffered while nothing has triggered it. -/
structure Buffered (initial : GrammarState) (pieces : List (Nat × List Byte)) (state : LazyGrammar) :
    Prop where
  grammar : state.grammar = initial
  buffer : state.triggerBuffer = textOf pieces
  positions : state.triggerBufferPositions = positionsFrom 0 pieces
  nonempty : ∀ piece ∈ pieces, piece.2 ≠ []

def lazyStep (rules : Rules) (env : TriggerEnv) (state : LazyGrammar) (call : Nat × Nat) : Option LazyGrammar :=
  match acceptImpl rules env call.2 call.1 state with
  | .done (.returned next) => some next
  | _ => none

/-- The states that tokens with nonempty pieces reach from the state that a lazy grammar has when
it is made. -/
abbrev LazyReaches (rules : Rules) (env : TriggerEnv) (initial : Stacks) : LazyGrammar → Prop :=
  Reaches (lazyStep rules env) (fun _ call => env.tokenToPiece call.1 ≠ [])
    ⟨⟨initial, ⟨0, 0⟩⟩, true, [], []⟩

theorem acceptImpl_awaiting {rules : Rules} {env : TriggerEnv} {fuel token : Nat} {state next : LazyGrammar}
    (accepted : acceptImpl rules env fuel token state = .done (.returned next))
    (awaiting : next.awaitingTrigger = true) :
    state.awaitingTrigger = true ∧ next = state.bufferToken token (env.tokenToPiece token) := by
  -- a call on the stacks does not begin to wait
  have written : ∀ (before : LazyGrammar) (result : AcceptResult),
      before.write result = .returned next → before.awaitingTrigger = true := by
    intro before result same
    cases result with
    | returned grammar =>
      cases same
      exact awaiting
    | threw grammar message => cases same
  simp only [acceptImpl] at accepted
  split at accepted
  · rename_i waits
    split at accepted
    · obtain ⟨result, -, same⟩ := Outcome.bind_eq_done.mp accepted
      have impossible := written _ result (Outcome.done.inj same)
      cases impossible
    · split at accepted
      · obtain ⟨result, -, same⟩ := Outcome.bind_eq_done.mp accepted
        split at same
        · split at same
          · cases same
          · cases same
            cases awaiting
        · cases same
      · cases accepted
        exact ⟨waits, rfl⟩
  · rename_i triggered
    split at accepted
    · split at accepted
      · cases accepted
        exact absurd awaiting triggered
      · cases accepted
    · obtain ⟨result, -, same⟩ := Outcome.bind_eq_done.mp accepted
      exact absurd (written state result (Outcome.done.inj same)) triggered

theorem Buffered.bufferToken {initial : GrammarState} {pieces : List (Nat × List Byte)}
    {state : LazyGrammar} (buffered : Buffered initial pieces state) (token : Nat) {piece : List Byte}
    (nonempty : piece ≠ []) :
    Buffered initial (pieces ++ [(token, piece)]) (state.bufferToken token piece) := by
  constructor
  · exact buffered.grammar
  · rw [LazyGrammar.bufferToken, buffered.buffer]
    simp [textOf]
  · rw [LazyGrammar.bufferToken, buffered.positions, buffered.buffer, positionsFrom_append]
    simp
  · intro other member
    rcases mem_append.mp member with before | last
    · exact buffered.nonempty other before
    · rw [mem_singleton.mp last]
      exact nonempty

theorem LazyReaches.buffered {rules : Rules} {env : TriggerEnv} {initial : Stacks}
    {state : LazyGrammar} (run : LazyReaches rules env initial state)
    (awaiting : state.awaitingTrigger = true) :
    ∃ pieces, Buffered ⟨initial, ⟨0, 0⟩⟩ pieces state := by
  refine Reaches.invariant
    (fun state => state.awaitingTrigger = true → ∃ pieces, Buffered ⟨initial, ⟨0, 0⟩⟩ pieces state)
    ?_ ?_ run awaiting
  · exact fun _ => ⟨[], rfl, rfl, rfl, fun _ impossible => by cases impossible⟩
  · intro before call next holds nonempty stepped nextAwaits
    unfold lazyStep at stepped
    split at stepped
    · rename_i after accepted
      cases stepped
      obtain ⟨awaits, same⟩ := acceptImpl_awaiting accepted nextAwaits
      obtain ⟨pieces, buffered⟩ := holds awaits
      rw [same]
      exact ⟨_, buffered.bufferToken call.1 nonempty⟩
    · cases stepped

/-- The tokens that overlap with what follows `start`, with what is left of their pieces. -/
def overlapping (buffer : List Byte) (start : Nat) : List (Nat × Nat × Nat) → List (Nat × List Byte)
  | [] => []
  | (tok, tokStart, tokEnd) :: rest =>
    if tokEnd ≤ start then overlapping buffer start rest
    else
      let pieceStart := if tokStart < start then start else tokStart
      (tok, (buffer.drop pieceStart).take (tokEnd - pieceStart)) :: overlapping buffer start rest

theorem replay_overlapping (rules : Rules) (fuel : Nat) (buffer : List Byte) (start : Nat)
    (positions : List (Nat × Nat × Nat)) (grammar : GrammarState) :
    replay rules fuel buffer start positions grammar =
      replayPieces rules fuel (overlapping buffer start positions) grammar := by
  induction positions generalizing grammar with
  | nil => rfl
  | cons position rest ih =>
    rw [replay, overlapping]
    split
    · exact ih grammar
    · simp only
      congr 1
      funext result
      congr 1
      funext next
      exact ih next

/-- What is left of the pieces behind the first `n` bytes. -/
def cutPieces : Nat → List (Nat × List Byte) → List (Nat × List Byte)
  | _, [] => []
  | n, (token, piece) :: rest =>
    if piece.length ≤ n then cutPieces (n - piece.length) rest
    else (token, piece.drop n) :: cutPieces 0 rest

theorem textOf_cutPieces (n : Nat) (pieces : List (Nat × List Byte)) :
    textOf (cutPieces n pieces) = (textOf pieces).drop n := by
  induction pieces generalizing n with
  | nil => exact drop_nil.symm
  | cons first rest ih =>
    obtain ⟨token, piece⟩ := first
    have split_ : ∀ (piece : List Byte) rest, textOf ((token, piece) :: rest) =
      piece ++ textOf rest := fun _ _ => rfl
    rw [cutPieces, split_, drop_append]
    split
    · rename_i short
      rw [ih, drop_eq_nil_of_le short, nil_append]
    · rename_i long
      rw [split_, ih, Nat.sub_eq_zero_of_le (Nat.le_of_not_le long)]

theorem cutPieces_append (n : Nat) (pieces : List (Nat × List Byte)) (token : Nat)
    {piece : List Byte} (nonempty : piece ≠ []) (inside : n < (textOf pieces ++ piece).length) :
    cutPieces n (pieces ++ [(token, piece)]) =
      cutPieces n pieces ++ [(token, piece.drop (n - (textOf pieces).length))] := by
  induction pieces generalizing n with
  | nil =>
    have long : ¬ piece.length ≤ n := by
      simp only [textOf, map_nil, flatten_nil, nil_append] at inside
      omega
    simp only [nil_append, cutPieces, if_neg long]
    rfl
  | cons first rest ih =>
    obtain ⟨before, front⟩ := first
    have split_ : textOf ((before, front) :: rest) = front ++ textOf rest := rfl
    have positive := length_pos_iff.mpr nonempty
    rw [split_, append_assoc, length_append] at inside
    rw [cons_append, cutPieces, cutPieces, split_, length_append]
    split
    · rw [ih _ (by omega), Nat.sub_sub]
    · rw [ih 0 (by rw [length_append]; omega), cons_append, Nat.zero_sub,
        Nat.sub_eq_zero_of_le (by omega)]

theorem overlapping_positionsFrom (start : Nat) (front : List Byte)
    (pieces : List (Nat × List Byte)) (nonempty : ∀ piece ∈ pieces, piece.2 ≠ []) :
    overlapping (front ++ textOf pieces) start (positionsFrom front.length pieces) =
      cutPieces (start - front.length) pieces := by
  induction pieces generalizing front with
  | nil => rfl
  | cons first rest ih =>
    obtain ⟨token, piece⟩ := first
    have split_ : textOf ((token, piece) :: rest) = piece ++ textOf rest := rfl
    have positive := length_pos_iff.mpr (nonempty _ (mem_cons_self ..))
    simp only at positive
    have later := ih (front ++ piece)
      (fun other member => nonempty other (mem_cons_of_mem _ member))
    rw [length_append, append_assoc, ← Nat.sub_sub] at later
    rw [split_, positionsFrom, overlapping, cutPieces, later]
    split
    · rw [if_pos (by omega)]
    · have long : ¬ piece.length ≤ start - front.length := by omega
      rw [if_neg long]
      have pieceStart : (if front.length < start then start else front.length) =
          front.length + (start - front.length) := by
        split
        · omega
        · omega
      have cut : ((front ++ (piece ++ textOf rest)).drop (front.length + (start - front.length))).take
          (front.length + piece.length - (front.length + (start - front.length))) =
            piece.drop (start - front.length) := by
        rw [drop_append, drop_eq_nil_of_le (Nat.le_add_right ..), nil_append,
          Nat.add_sub_cancel_left, drop_append_of_le_length (by omega)]
        apply take_left'
        rw [length_drop]
        omega
      have later_ : start - front.length - piece.length = 0 := by omega
      simp only [pieceStart, cut, later_]

theorem Buffered.overlapping {initial : GrammarState} {pieces : List (Nat × List Byte)}
    {state : LazyGrammar} (buffered : Buffered initial pieces state) (start : Nat) :
    Grammar.overlapping state.triggerBuffer start state.triggerBufferPositions =
      cutPieces start pieces := by
  have cut := overlapping_positionsFrom start [] pieces buffered.nonempty
  rwa [length_nil, ← buffered.buffer, ← buffered.positions] at cut

theorem cutPieces_of_le {n : Nat} (pieces : List (Nat × List Byte))
    (short : (textOf pieces).length ≤ n) : cutPieces n pieces = [] := by
  induction pieces generalizing n with
  | nil => rfl
  | cons first rest ih =>
    obtain ⟨token, piece⟩ := first
    have split_ : textOf ((token, piece) :: rest) = piece ++ textOf rest := rfl
    rw [split_, length_append] at short
    rw [cutPieces, if_pos (by omega)]
    exact ih (by omega)

def AcceptResult.state : AcceptResult → GrammarState
  | .returned grammar => grammar
  | .threw grammar _ => grammar

/-- The stacks that the replay leaves where the text leaves these as a string; `front` is the
text before the last token. -/
def replayKeeps (front text : List Byte) (current : Stacks) : Stacks :=
  if codePointsOf text ⟨0, 0⟩ = codePointsOf front ⟨0, 0⟩ then unfinished current else current

/-- The replay ends when the string does; it leaves the stacks of the string and the partial
sequence, but for the empty stack after a token that ends no code point, and throws exactly
when no stack is left. -/
structure ReplayAgrees (front text : List Byte) (replayed : Outcome ImplResult)
    (accepted : Outcome AcceptResult) : Prop where
  ends : (∃ result, replayed = .done result) ↔ ∃ result, accepted = .done result
  returns : ∀ result, accepted = .done result →
    replayKeeps front text result.state.grammarStacks ≠ [] →
    replayed = .done (.returned
      ⟨⟨replayKeeps front text result.state.grammarStacks, result.state.partialUtf8⟩, false, [], []⟩)
  throws : ∀ result, accepted = .done result →
    replayKeeps front text result.state.grammarStacks = [] →
    ∃ state message, replayed = .done (.threw state message) ∧ state.grammar.grammarStacks = []

theorem acceptImpl_matches {env : TriggerEnv} {waiting buffered : LazyGrammar}
    (awaiting : waiting.awaitingTrigger = true) {token start : Nat}
    (noTrigger : token ∉ env.triggerTokens)
    (buffers : waiting.bufferToken token (env.tokenToPiece token) = buffered)
    (found : firstMatch env.triggerPatterns buffered.triggerBuffer = some start)
    (inside : start ≤ buffered.triggerBuffer.length) (rules : Rules) (fuel : Nat) :
    acceptImpl rules env fuel token waiting =
      (replayPieces rules fuel
          (overlapping buffered.triggerBuffer start buffered.triggerBufferPositions)
          waiting.grammar).bind fun result =>
        match result with
        | .returned grammar => .done (.returned ⟨grammar, false, [], []⟩)
        | .threw grammar message =>
          .done (.threw ⟨grammar, false, buffered.triggerBuffer, buffered.triggerBufferPositions⟩
            message) := by
  simp [acceptImpl, if_pos awaiting, if_neg noTrigger, buffers, found, replay_overlapping,
    if_neg (not_lt.mpr inside)]

theorem Agrees.replay {front text : List Byte} {rules : Rules} {fuel : Nat} {initial : Stacks}
    {last : List Nat} {replayed : Outcome AcceptResult} (buffer : List Byte)
    (positions : List (Nat × Nat × Nat))
    (agrees : Agrees replayed (acceptAll rules fuel (codePointsOf text ⟨0, 0⟩) initial) last
      (decodeUtf8 text ⟨0, 0⟩).2)
    (ended : last = [] ↔ codePointsOf text ⟨0, 0⟩ = codePointsOf front ⟨0, 0⟩) :
    ReplayAgrees front text
      (replayed.bind fun result =>
        match result with
        | .returned grammar => .done (.returned ⟨grammar, false, [], []⟩)
        | .threw grammar message => .done (.threw ⟨grammar, false, buffer, positions⟩ message))
      (acceptStr rules fuel text ⟨initial, ⟨0, 0⟩⟩) := by
  have kept : ∀ current, keptStacks last current = replayKeeps front text current := by
    intro current
    unfold keptStacks replayKeeps
    simp [ended]
  -- the string is accepted when its code points are, whether it throws or not
  have accepts : ∀ result, acceptStr rules fuel text ⟨initial, ⟨0, 0⟩⟩ = .done result →
      acceptAll rules fuel (codePointsOf text ⟨0, 0⟩) initial = .done result.state.grammarStacks ∧
        result.state.partialUtf8 = (decodeUtf8 text ⟨0, 0⟩).2 := by
    intro result accepted
    obtain ⟨whole, read, same⟩ := Outcome.bind_eq_done.mp accepted
    simp only [Outcome.done.injEq] at same
    rw [read, ← same]
    split
    · exact ⟨rfl, rfl⟩
    · exact ⟨rfl, rfl⟩
  constructor
  · constructor
    · rintro ⟨result, done⟩
      obtain ⟨called, replays, -⟩ := Outcome.bind_eq_done.mp done
      obtain ⟨whole, read⟩ := agrees.ends ⟨called, replays⟩
      exact ⟨_, by rw [acceptStr, read, Outcome.bind_done]⟩
    · rintro ⟨result, accepted⟩
      obtain ⟨called, replays, -⟩ := agrees.result _ (accepts result accepted).1
      rw [replays]
      cases called with
      | returned grammar => exact ⟨_, rfl⟩
      | threw grammar message => exact ⟨_, rfl⟩
  · intro result accepted some_
    obtain ⟨read, partialUtf8⟩ := accepts result accepted
    obtain ⟨called, replays, endsWith⟩ := agrees.result _ read
    rw [kept] at endsWith
    rw [replays, Outcome.bind_done, partialUtf8]
    cases called with
    | returned grammar =>
      rw [endsWith.2]
    | threw grammar message => exact absurd endsWith.1 some_
  · intro result accepted none_
    obtain ⟨called, replays, endsWith⟩ := agrees.result _ (accepts result accepted).1
    rw [kept] at endsWith
    rw [replays]
    cases called with
    | returned grammar => exact absurd none_ endsWith.1
    | threw grammar message => exact ⟨_, message, rfl, endsWith.2⟩

/-- When a pattern first matches, the replay does what accepting the text behind the start of the
match as one string does. -/
theorem replay_accepts_text {env : TriggerEnv} {raw : List (List Element)} {root initFuel : Nat}
    {initial : Stacks} (made : initImpl raw root initFuel = .done (some initial))
    (tokenFree : TokenFree (copyRules raw)) {waiting buffered : LazyGrammar}
    (run : LazyReaches (copyRules raw) env initial waiting)
    (awaiting : waiting.awaitingTrigger = true) (token start : Nat)
    (nonempty : env.tokenToPiece token ≠ []) (noTrigger : token ∉ env.triggerTokens)
    (buffers : waiting.bufferToken token (env.tokenToPiece token) = buffered)
    (found : firstMatch env.triggerPatterns buffered.triggerBuffer = some start)
    (inside : start ≤ buffered.triggerBuffer.length)
    {front text : List Byte} (frontIs : waiting.triggerBuffer.drop start = front)
    (textIs : buffered.triggerBuffer.drop start = text) (plain : 0 ∉ front)
    (decode : front ≠ [] → PiecesDecode ⟨0, 0⟩
      ((overlapping buffered.triggerBuffer start buffered.triggerBufferPositions).map Prod.snd))
    (fuel : Nat) :
    (text = [] → acceptImpl (copyRules raw) env fuel token waiting =
      .done (.returned ⟨⟨initial, ⟨0, 0⟩⟩, false, [], []⟩)) ∧
    (text ≠ [] → ReplayAgrees front text (acceptImpl (copyRules raw) env fuel token waiting)
      (acceptStr (copyRules raw) fuel text ⟨initial, ⟨0, 0⟩⟩)) := by
  obtain ⟨pieces, before⟩ := run.buffered awaiting
  have after := before.bufferToken token nonempty
  rw [buffers] at after
  have distinct := initImpl_nodup made
  rw [acceptImpl_matches awaiting noTrigger buffers found inside, before.grammar]
  rw [after.overlapping start] at decode ⊢
  constructor
  · intro none_
    rw [← textIs, drop_eq_nil_iff, after.buffer] at none_
    rw [cutPieces_of_le _ none_, replayPieces, Outcome.bind_done]
  · intro some_
    have joined : textOf (pieces ++ [(token, env.tokenToPiece token)]) =
        textOf pieces ++ env.tokenToPiece token := by
      simp [textOf]
    have ends : start < (textOf pieces ++ env.tokenToPiece token).length := by
      rw [← joined, ← after.buffer]
      apply Nat.lt_of_not_le
      intro outside
      rw [← textIs, drop_eq_nil_of_le outside] at some_
      exact some_ rfl
    have parts : text = front ++ (env.tokenToPiece token).drop (start - (textOf pieces).length) := by
      rw [← textIs, ← frontIs, after.buffer, joined, drop_append, before.buffer]
    have frontText : textOf (cutPieces start pieces) = front := by
      rw [textOf_cutPieces, ← before.buffer, frontIs]
    rw [cutPieces_append start pieces token nonempty ends] at decode ⊢
    by_cases noFront : front = []
    · -- the match starts in the last token
      have none_ : cutPieces start pieces = [] := by
        apply cutPieces_of_le
        rw [← before.buffer]
        exact drop_eq_nil_iff.mp (frontIs.trans noFront)
      rw [noFront, nil_append] at parts
      rw [none_, ← parts, noFront]
      exact (replayPieces_single tokenFree token text ⟨initial, ⟨0, 0⟩⟩ distinct).replay _ _ Iff.rfl
    · have pieces_ := decode noFront
      rw [map_append] at pieces_
      rw [← frontText] at plain
      have begins : (⟨0, 0⟩ : PartialUtf8).nRemain ≠ -1 := by decide
      have agrees := replayPieces_agrees (copyRules raw) fuel tokenFree (cutPieces start pieces) token
        ((env.tokenToPiece token).drop (start - (textOf pieces).length)) ⟨initial, ⟨0, 0⟩⟩ distinct
        begins plain pieces_
      obtain ⟨frontDecodes, lastDecodes⟩ := PiecesDecode.front begins plain pieces_
      have codePoints := (decodeUtf8_append plain _ frontDecodes lastDecodes).1
      rw [frontText, ← parts] at codePoints
      rw [frontText, ← parts] at agrees
      apply agrees.replay
      rw [codePoints, append_right_eq_self]

/-- Tokens that are these pieces, and a pattern that matches their text from `start` on. -/
def envOfPieces (pieces : List (List Byte)) (start : Nat) : TriggerEnv where
  triggerTokens := []
  triggerPatterns := [fun buffer => if buffer = pieces.flatten then some start else none]
  tokenToPiece token := pieces.getD token []
  tokenIsEog _ := false

/-- `root ::= "aé"`. -/
def accentTable : List (List Element) := [[⟨.char, 0x61⟩, ⟨.char, 0xE9⟩, ⟨.end, 0⟩]]

/-- The match starts inside the first token, and the second token ends inside a sequence. -/
theorem replay_accepts_text_at_accent :
    ReplayAgrees [0x61, 0xC3] [0x61, 0xC3, 0xA9]
      (acceptImpl (copyRules accentTable) (envOfPieces [[0x78, 0x61], [0xC3], [0xA9]] 1) 3 2
        ⟨⟨[[⟨0, 0⟩]], ⟨0, 0⟩⟩, true, [0x78, 0x61, 0xC3], [(0, 0, 2), (1, 2, 3)]⟩)
      (acceptStr (copyRules accentTable) 3 [0x61, 0xC3, 0xA9] ⟨[[⟨0, 0⟩]], ⟨0, 0⟩⟩) := by
  have made : initImpl accentTable 0 3 = .done (some [[⟨0, 0⟩]]) := by decide
  have run : LazyReaches (copyRules accentTable) (envOfPieces [[0x78, 0x61], [0xC3], [0xA9]] 1)
      [[⟨0, 0⟩]] ⟨⟨[[⟨0, 0⟩]], ⟨0, 0⟩⟩, true, [0x78, 0x61, 0xC3], [(0, 0, 2), (1, 2, 3)]⟩ :=
    reaches_of_runChecked [(0, 3), (1, 3)] _ _ rfl
  have found : firstMatch (envOfPieces [[0x78, 0x61], [0xC3], [0xA9]] 1).triggerPatterns
      [0x78, 0x61, 0xC3, 0xA9] = some 1 := rfl
  have decode := @piecesDecode_of_owed [[0x61], [0xC3]] [0xA9] 0 0 (by decide) (by decide)
  exact (replay_accepts_text made (by decide) run rfl 2 1 (by decide) (by decide) rfl found (by decide)
    rfl rfl (by decide) (fun _ => decode) 3).2 (by decide)

/-- `root ::= "a"`. -/
def letterTable : List (List Element) := [[⟨.char, 0x61⟩, ⟨.end, 0⟩]]

/-- `root ::= "ab"`. -/
def lettersTable : List (List Element) := [[⟨.char, 0x61⟩, ⟨.char, 0x62⟩, ⟨.end, 0⟩]]

/-- Behind a text that the grammar derives, a token that ends no code point makes the replay throw,
where the string leaves the empty stack.  A zero byte ends the string but only one piece, and an
invalid byte discards the code points of the string but not those of another piece. -/
theorem replay_differs_from_text :
    (initImpl letterTable 0 3 = .done (some [[⟨0, 0⟩]]) ∧ TokenFree (copyRules letterTable) ∧
      ∃ waiting message, LazyReaches (copyRules letterTable) (envOfPieces [[0x61], [0xC3]] 0)
        [[⟨0, 0⟩]] waiting ∧ waiting.awaitingTrigger = true ∧
      acceptImpl (copyRules letterTable) (envOfPieces [[0x61], [0xC3]] 0) 3 1 waiting =
        .done (.threw ⟨⟨[], ⟨3, 1⟩⟩, false, [0x61, 0xC3], [(0, 0, 1), (1, 1, 2)]⟩ message) ∧
      acceptStr (copyRules letterTable) 3 [0x61, 0xC3] ⟨[[⟨0, 0⟩]], ⟨0, 0⟩⟩ =
        .done (.returned ⟨[[]], ⟨3, 1⟩⟩)) ∧
    (∃ waiting, LazyReaches (copyRules lettersTable) (envOfPieces [[0x61, 0x00], [0x62]] 0)
        [[⟨0, 0⟩]] waiting ∧ waiting.awaitingTrigger = true ∧
      acceptImpl (copyRules lettersTable) (envOfPieces [[0x61, 0x00], [0x62]] 0) 3 1 waiting =
        .done (.returned ⟨⟨[[]], ⟨0x62, 0⟩⟩, false, [], []⟩) ∧
      acceptStr (copyRules lettersTable) 3 [0x61, 0x00, 0x62] ⟨[[⟨0, 0⟩]], ⟨0, 0⟩⟩ =
        .done (.returned ⟨[[⟨0, 1⟩]], ⟨0x61, 0⟩⟩)) ∧
    ∃ waiting, LazyReaches (copyRules lettersTable) (envOfPieces [[0x61], [0x62, 0x80]] 0)
        [[⟨0, 0⟩]] waiting ∧ waiting.awaitingTrigger = true ∧
      acceptImpl (copyRules lettersTable) (envOfPieces [[0x61], [0x62, 0x80]] 0) 3 1 waiting =
        .done (.returned ⟨⟨[[⟨0, 1⟩]], ⟨0, -1⟩⟩, false, [], []⟩) ∧
      acceptStr (copyRules lettersTable) 3 [0x61, 0x62, 0x80] ⟨[[⟨0, 0⟩]], ⟨0, 0⟩⟩ =
        .done (.returned ⟨[[⟨0, 0⟩]], ⟨0, -1⟩⟩) := by
  refine ⟨⟨by decide, by decide, _, _, reaches_of_runChecked [(0, 3)] _ _ rfl, rfl, rfl, rfl⟩,
    ⟨_, reaches_of_runChecked [(0, 3)] _ _ rfl, rfl, rfl, rfl⟩,
    ⟨_, reaches_of_runChecked [(0, 3)] _ _ rfl, rfl, rfl, rfl⟩⟩

end LlamaCpp.Grammar
