import LlamaCpp.Samplers.Draw
import LlamaCpp.Server.StringBan

/-!
# The history of adaptive-p sampling

The sampler adds an entry for every token it draws.  After each token the server has the history
reviewed: it is cut to the entries of the tokens that are not sent, when that is less than half of
it, and behind a rewind the entries of the removed tokens are cut off.  That cut counts from the
beginning of the history, which need not be where the buffer begins.
-/

set_option autoImplicit false

namespace LlamaCpp.Server

open LlamaCpp.Lib LlamaCpp.Samplers List Option

structure UpdateProb where
  value : ℚ
  positive : 0 < value
deriving DecidableEq

structure AdaptiveDraw where
  rejected : Option UpdateProb := none
  prob : UpdateProb
  token : SampledToken

def clampedDecay (decay : ℚ) : ℚ := max 0 (min decay (99 / 100))

def initialEntry (target decay : ℚ) : ℚ × ℚ :=
  (target / (1 - clampedDecay decay), 1 / (1 - clampedDecay decay))

def initAdaptiveP (target decay : ℚ) (updtWCur : Bool) : AdaptiveP where
  target := target
  decay := clampedDecay decay
  updtWCur := updtWCur
  history := [initialEntry target decay]
  started := cons_ne_nil _ _
  origProb := []
  cumOrigProb := some 1
  maxXformLogit := ⊥

/-- The history after `llama_sampling_sample_impl`, which samples once more if the grammar rejects
the token. -/
def samplingSample (ctx : AdaptiveP) (draw : AdaptiveDraw) : AdaptiveP :=
  let first := match draw.rejected with
    | some rejected => ctx.update (some rejected.value)
    | none => ctx
  first.update (some draw.prob.value)

def overwriteOld (hszDiff : Nat) : Nat → List (ℚ × ℚ) → List (ℚ × ℚ)
  | 0, history => history
  | j + 1, history =>
    let moved := overwriteOld hszDiff j history
    moved.set j (moved.getD (j + hszDiff) (0, 0))

@[simp] theorem length_overwriteOld (hszDiff n : Nat) (history : List (ℚ × ℚ)) :
    (overwriteOld hszDiff n history).length = history.length := by
  induction n with
  | zero => rfl
  | succ n ih => rw [overwriteOld, length_set, ih]

theorem take_ne_nil {α : Type*} {items : List α} (some_ : items ≠ []) (n : Nat) :
    items.take (1 + n) ≠ [] := by
  refine length_pos_iff.mp ?_
  have pos := length_pos_iff.mpr some_
  rw [length_take]
  omega

variable {history : List (ℚ × ℚ)} {initial : ℚ × ℚ} {ctx : AdaptiveP} {kept : List ℚ}

theorem overwriteOld_ne_nil (some_ : history ≠ []) (hszDiff n : Nat) :
    overwriteOld hszDiff n history ≠ [] := by
  rw [← length_pos_iff, length_overwriteOld]
  exact length_pos_iff.mpr some_

def reviewAdaptiveP (ctx : AdaptiveP) (nUnsent : Nat) (rewindStatus : Bool) : AdaptiveP :=
  if ctx.target < 0 then ctx
  else if ctx.history.length / 2 ≤ 1 + nUnsent then ctx
  else if rewindStatus then
    { ctx with
      history := ctx.history.take (1 + nUnsent)
      started := take_ne_nil ctx.started nUnsent }
  else
    { ctx with
      history := (overwriteOld (ctx.history.length - (1 + nUnsent)) (1 + nUnsent)
        ctx.history).take (1 + nUnsent)
      started := take_ne_nil (overwriteOld_ne_nil ctx.started _ _) nUnsent }

/-- A slot with its sampler.  `pending` are the tokens accepted of a draft that are still to be
handled, `kept` the probabilities of the tokens that are sent or in the buffer. -/
structure AdaptiveSlot where
  slot : BanSlot
  rewindStatus : Bool
  ctx : AdaptiveP
  pending : List AdaptiveDraw
  kept : List ℚ

variable (rules : BanRules)

def waits (slot : BanSlot) (result : SampledToken) : Bool :=
  !unbuffered rules && !rewinds rules (pushOutput slot result.output) &&
    !(decide (rules.nBuffer ≤ (pushOutput slot result.output).tokenBuffer.length) ||
      !result.hasNextToken)

/-- `rewind_status` after a token. -/
def nextRewindStatus (slot : BanSlot) (result : SampledToken) (rewindStatus : Bool) : Bool :=
  if unbuffered rules then rewindStatus
  else if rewinds rules (pushOutput slot result.output) then true
  else if waits rules slot result then rewindStatus
  else false

/-- The slot `next` after a token of `slot`, with the review or without it. -/
def afterToken (state : AdaptiveSlot) (slot next : BanSlot) (draw : AdaptiveDraw)
    (reviewed : Bool) : AdaptiveSlot :=
  let rewindStatus := nextRewindStatus rules slot draw.token state.rewindStatus
  { state with
    slot := next
    rewindStatus := rewindStatus
    ctx := if reviewed then reviewAdaptiveP state.ctx next.tokenBuffer.length rewindStatus
      else state.ctx
    kept := (state.kept ++ [draw.prob.value]).take (next.sent.length + next.tokenBuffer.length) }

/-- A token that `update_slots` samples of a slot without a draft. -/
def sampleOne (state : AdaptiveSlot) (slot : BanSlot) (draw : AdaptiveDraw) : AdaptiveSlot :=
  afterToken rules { state with ctx := samplingSample state.ctx draw } slot
    (handleSampled rules slot draw.token) draw true

/-- One accepted token in `speculative_decoding_accept`, which a released slot leaves before the
review. -/
def acceptOne (state : AdaptiveSlot) (draw : AdaptiveDraw) (rest : List AdaptiveDraw) :
    AdaptiveSlot :=
  let next := handleAccepted rules state.slot draw.token
  { afterToken rules state state.slot next draw (!next.released) with
    pending := if next.released then [] else rest }

inductive AdaptiveOp
  | sample (draw : AdaptiveDraw)
  | accept (draft : List Int) (first : AdaptiveDraw) (rest : List AdaptiveDraw)
  | next

def commitDraws (state : AdaptiveSlot) (draft : List Int) (draws : List AdaptiveDraw) :
    AdaptiveSlot :=
  { state with
    ctx := draws.foldl samplingSample state.ctx
    slot := commitAccepted (BanSlot.addSampledTokens state.slot draft) draft.length
      (draws.map AdaptiveDraw.token) }

def adaptiveStep (state : AdaptiveSlot) (op : AdaptiveOp) : Option AdaptiveSlot :=
  if state.slot.released then none
  else
    match op, state.pending with
    | .sample draw, [] => some (sampleOne rules state (BanSlot.addSampledTokens state.slot []) draw)
    | .accept draft first rest, [] =>
      some (acceptOne rules (commitDraws state draft (first :: rest)) first rest)
    | .next, draw :: rest => some (acceptOne rules state draw rest)
    | _, _ => none

def adaptiveStart (prompt : List Int) (ctx : AdaptiveP) (first : AdaptiveDraw) : AdaptiveSlot :=
  sampleOne rules ⟨promptDecoded prompt, false, ctx, [], []⟩ (promptDecoded prompt) first

def foldHistory (decay : ℚ) (entry : ℚ × ℚ) (prob : ℚ) : ℚ × ℚ :=
  (decay * entry.1 + prob, decay * entry.2 + 1)

def Remembers (initial : ℚ × ℚ) (state : AdaptiveSlot) : Prop :=
  state.ctx.history.getLast? = some (state.kept.foldl (foldHistory state.ctx.decay) initial)

def keptInBuffer (slot : BanSlot) (result : SampledToken) : Nat :=
  let pushed := pushOutput slot result.output
  (checkBanPhrase rules pushed - (pushed.nPast - pushed.tokenBuffer.length + 1)).toNat

/-- A rewind removes more than half of a history that begins where the buffer does; any other
token was not resampled, and does not meet the review with the status of an old rewind when that
review is due. -/
def KeepsToken (state : AdaptiveSlot) (slot : BanSlot) (draw : AdaptiveDraw) : Prop :=
  let drawn := if draw.rejected.isSome then 2 else 1
  if handledRewinds rules slot draw.token then
    state.ctx.history.length = 1 + slot.tokenBuffer.length ∧
      1 + keptInBuffer rules slot draw.token < (state.ctx.history.length + drawn) / 2
  else draw.rejected = none ∧
    ¬ (waits rules slot draw.token = true ∧ state.rewindStatus = true ∧
      1 + (slot.tokenBuffer.length + 1) < (state.ctx.history.length + drawn) / 2)

instance (state : AdaptiveSlot) (slot : BanSlot) (draw : AdaptiveDraw) :
    Decidable (KeepsToken rules state slot draw) :=
  inferInstanceAs (Decidable (if handledRewinds rules slot draw.token = true then
      state.ctx.history.length = 1 + slot.tokenBuffer.length ∧
        1 + keptInBuffer rules slot draw.token <
          (state.ctx.history.length + if draw.rejected.isSome then 2 else 1) / 2
    else draw.rejected = none ∧
      ¬ (waits rules slot draw.token = true ∧ state.rewindStatus = true ∧
        1 + (slot.tokenBuffer.length + 1) <
          (state.ctx.history.length + if draw.rejected.isSome then 2 else 1) / 2)))

def KeepsHistory (state : AdaptiveSlot) : AdaptiveOp → Prop
  | .sample draw => KeepsToken rules state (BanSlot.addSampledTokens state.slot []) draw
  | .accept draft first rest =>
    rest = [] ∧ KeepsToken rules state (commitDraws state draft [first]).slot first
  | .next => True

instance (state : AdaptiveSlot) (op : AdaptiveOp) : Decidable (KeepsHistory rules state op) :=
  match op with
  | .sample draw =>
    inferInstanceAs
      (Decidable (KeepsToken rules state (BanSlot.addSampledTokens state.slot []) draw))
  | .accept draft first rest =>
    inferInstanceAs
      (Decidable (rest = [] ∧ KeepsToken rules state (commitDraws state draft [first]).slot first))
  | .next => inferInstanceAs (Decidable True)

theorem getElem?_overwriteOld {hszDiff n : Nat} (inside : n + hszDiff ≤ history.length) (j : Nat) :
    (overwriteOld hszDiff n history)[j]? =
      if j < n then history[j + hszDiff]? else history[j]? := by
  induction n generalizing j with
  | zero => rfl
  | succ n ih =>
    have moved := ih (by omega) (n + hszDiff)
    rw [if_neg (by omega)] at moved
    rw [overwriteOld, List.getElem?_set, length_overwriteOld]
    by_cases here : n = j
    · subst here
      rw [if_pos rfl, if_pos (by omega), if_pos (Nat.lt_succ_self n), getD_eq_getElem?_getD,
        moved, List.getElem?_eq_getElem (by omega), getD_some]
    · rw [if_neg here, ih (by omega)]
      by_cases before : j < n
      · rw [if_pos before, if_pos (by omega)]
      · rw [if_neg before, if_neg (by omega)]

theorem take_overwriteOld {hszNext : Nat} (shorter : hszNext ≤ history.length) :
    (overwriteOld (history.length - hszNext) hszNext history).take hszNext =
      history.drop (history.length - hszNext) := by
  refine ext_getElem? fun j => ?_
  rw [List.getElem?_take, getElem?_overwriteOld (by omega), List.getElem?_drop, add_comm]
  by_cases inside : j < hszNext
  · rw [if_pos inside, if_pos inside]
  · rw [if_neg inside, List.getElem?_eq_none (by omega)]

/-- The entries are those of the last kept tokens, and perhaps of the beginning. -/
structure Follows (initial : ℚ × ℚ) (ctx : AdaptiveP) (kept : List ℚ) : Prop where
  suffix : ctx.history <:+ kept.scanl (foldHistory ctx.decay) initial

theorem Follows.getLast (follows : Follows initial ctx kept) :
    ctx.history.getLast? = some (kept.foldl (foldHistory ctx.decay) initial) := by
  obtain ⟨before, whole⟩ := follows.suffix
  rw [← List.getLast?_scanl, ← whole,
    List.getLast?_append_of_ne_nil _ ctx.started]

theorem update_history (ctx : AdaptiveP) (prob : UpdateProb) :
    (ctx.update (some prob.value)).history =
      ctx.history ++ [foldHistory ctx.decay (ctx.history.getLast ctx.started) prob.value] := by
  rw [AdaptiveP.update]
  rw [if_pos prob.positive]
  rfl

theorem update_decay (ctx : AdaptiveP) (prob : UpdateProb) :
    (ctx.update (some prob.value)).decay = ctx.decay ∧
      (ctx.update (some prob.value)).target = ctx.target := by
  rw [AdaptiveP.update]
  rw [if_pos prob.positive]
  exact ⟨rfl, rfl⟩

theorem Follows.sample (follows : Follows initial ctx kept) {draw : AdaptiveDraw}
    (once : draw.rejected = none) :
    Follows initial (samplingSample ctx draw) (kept ++ [draw.prob.value]) := by
  have sampled : samplingSample ctx draw = ctx.update (some draw.prob.value) := by
    rw [samplingSample, once]
  have last : ctx.history.getLast ctx.started = kept.foldl (foldHistory ctx.decay) initial := by
    have entry := follows.getLast
    rw [List.getLast?_eq_some_getLast ctx.started] at entry
    exact some.inj entry
  constructor
  rw [sampled, update_history, (update_decay ctx draw.prob).1, last, scanl_append]
  obtain ⟨before, whole⟩ := follows.suffix
  refine ⟨before, ?_⟩
  rw [← append_assoc, whole, scanl_singleton, tail_cons]

theorem samplingSample_same (ctx : AdaptiveP) (draw : AdaptiveDraw) :
    (samplingSample ctx draw).decay = ctx.decay ∧
      (samplingSample ctx draw).target = ctx.target := by
  rw [samplingSample]
  cases draw.rejected with
  | none => exact update_decay ctx draw.prob
  | some rejected =>
    obtain ⟨decay, target⟩ := update_decay ctx rejected
    obtain ⟨decay_, target_⟩ := update_decay (ctx.update (some rejected.value)) draw.prob
    exact ⟨decay_.trans decay, target_.trans target⟩

theorem samplingSample_history (ctx : AdaptiveP) (draw : AdaptiveDraw) :
    ∃ drawn, (samplingSample ctx draw).history = ctx.history ++ drawn ∧
      drawn.length = if draw.rejected.isSome then 2 else 1 := by
  rw [samplingSample]
  cases draw.rejected with
  | none => exact ⟨_, update_history ctx draw.prob, rfl⟩
  | some rejected =>
    have first := update_history ctx rejected
    have second := update_history (ctx.update (some rejected.value)) draw.prob
    exact ⟨_, (second.trans (congrArg (· ++ _) first)).trans (append_assoc ..), rfl⟩

theorem reviewAdaptiveP_same (ctx : AdaptiveP) (nUnsent : Nat) (rewindStatus : Bool) :
    (reviewAdaptiveP ctx nUnsent rewindStatus).decay = ctx.decay ∧
      (reviewAdaptiveP ctx nUnsent rewindStatus).target = ctx.target := by
  unfold reviewAdaptiveP
  split_ifs <;> exact ⟨rfl, rfl⟩

theorem Follows.review (follows : Follows initial ctx kept) (nUnsent : Nat) {rewindStatus : Bool}
    (calm : rewindStatus = false ∨ ctx.history.length / 2 ≤ 1 + nUnsent) :
    Follows initial (reviewAdaptiveP ctx nUnsent rewindStatus) kept := by
  constructor
  rw [(reviewAdaptiveP_same ctx nUnsent rewindStatus).1]
  refine List.IsSuffix.trans ?_ follows.suffix
  unfold reviewAdaptiveP
  split_ifs with disabled skips rewinding
  · exact suffix_refl _
  · exact suffix_refl _
  · rcases calm with sent | small
    · rw [rewinding] at sent
      contradiction
    · exact absurd small skips
  · dsimp only
    rw [take_overwriteOld (by omega)]
    exact drop_suffix _ _

theorem Follows.rewind {drawnCtx : AdaptiveP} (follows : Follows initial ctx kept)
    {drawn : List (ℚ × ℚ)} (history : drawnCtx.history = ctx.history ++ drawn)
    (decay : drawnCtx.decay = ctx.decay) (enabled : 0 ≤ drawnCtx.target) {sent nUnsent : Nat}
    (begins : ctx.history.length + sent = kept.length + 1) (less : nUnsent + sent ≤ kept.length)
    (large : 1 + nUnsent < (ctx.history.length + drawn.length) / 2) :
    Follows initial (reviewAdaptiveP drawnCtx nUnsent true) (kept.take (sent + nUnsent)) := by
  constructor
  have lengths := congrArg List.length history
  rw [length_append] at lengths
  rw [(reviewAdaptiveP_same drawnCtx nUnsent true).1, decay, reviewAdaptiveP,
    if_neg (not_lt.mpr enabled), if_neg (by omega), if_pos rfl]
  dsimp only
  rw [history, take_append_of_le_length (by omega)]
  obtain ⟨before, whole⟩ := follows.suffix
  have size := congrArg List.length whole
  rw [length_append, length_scanl] at size
  have front : before.length = sent := by omega
  refine ⟨before, ?_⟩
  rw [← take_scanl, ← whole, ← front, add_assoc, add_comm nUnsent,
    take_length_add_append]

structure Counted (slot next : BanSlot) (result : SampledToken) : Prop where
  stays : handledRewinds rules slot result = false →
    next.sent.length + next.tokenBuffer.length =
      slot.sent.length + slot.tokenBuffer.length + 1
  rewound : handledRewinds rules slot result = true → next.sent = slot.sent ∧
    next.tokenBuffer.length = keptInBuffer rules slot result ∧
      keptInBuffer rules slot result ≤ slot.tokenBuffer.length
  waiting : waits rules slot result = true → next.tokenBuffer.length = slot.tokenBuffer.length + 1
  unbuffered : unbuffered rules = true → next.tokenBuffer = []

section

variable {rules}

variable {slot : BanSlot} {result : SampledToken}

theorem Taken.count {next : BanSlot} {tok : Int} (taken : Taken slot next tok) :
    next.sent.length + next.tokenBuffer.length =
      slot.sent.length + slot.tokenBuffer.length + 1 := by
  have lengths := congrArg List.length taken.contents
  simp only [BanSlot.contents, taken.prompt, length_append, length_map,
    length_singleton] at lengths
  omega

theorem bufferAndCheck_counted (buffering : unbuffered rules = false) :
    Counted rules slot (bufferAndCheckStringBan rules slot result) result := by
  have buffered : (pushOutput slot result.output).tokenBuffer.length =
      slot.tokenBuffer.length + 1 := by
    simp [pushOutput]
  constructor
  · intro stays
    rw [handledRewinds, buffering] at stays
    exact (bufferAndCheck_taken stays).count
  · intro rewound
    rw [handledRewinds, buffering] at rewound
    have banned : rewinds rules (pushOutput slot result.output) = true := rewound
    have answer := banned
    rw [rewinds, Bool.and_eq_true, decide_eq_true_eq] at answer
    obtain ⟨idx, inside, found⟩ := checkBanPhrase_eq answer.1
    have keeps : keptInBuffer rules slot result = idx := by
      rw [keptInBuffer]
      omega
    rw [bufferAndCheckStringBan, if_pos banned]
    refine ⟨rfl, ?_, by omega⟩
    have taken : (checkBanPhrase rules (pushOutput slot result.output) -
        ((pushOutput slot result.output).nPast -
          (pushOutput slot result.output).tokenBuffer.length + 1)).toNat = idx := keeps
    simp only [rewindContext, length_append, length_take, length_replicate]
    omega
  · intro waiting
    rw [waits, buffering] at waiting
    simp only [Bool.not_false, Bool.true_and, Bool.and_eq_true, Bool.not_eq_true',
      Bool.or_eq_false_iff, decide_eq_false_iff_not] at waiting
    obtain ⟨stays, short, goesOn⟩ := waiting
    rw [bufferAndCheckStringBan, if_neg (by rw [stays]; exact Bool.false_ne_true),
      if_neg (by rw [not_or]; exact ⟨short, by simpa using goesOn⟩)]
    exact buffered
  · intro impossible
    rw [buffering] at impossible
    contradiction

theorem handledRewinds_unbuffered (unbuffering : unbuffered rules = true) :
    handledRewinds rules slot result = false := by
  rw [handledRewinds, unbuffering]
  rfl

theorem counted_of_unbuffered {next : BanSlot} (unbuffering : unbuffered rules = true)
    (empty : slot.tokenBuffer = []) (sent : next.sent.length = slot.sent.length + 1)
    (none_ : next.tokenBuffer = []) : Counted rules slot next result := by
  constructor
  · intro _
    rw [sent, none_, empty]
    rfl
  · intro impossible
    rw [handledRewinds_unbuffered unbuffering] at impossible
    contradiction
  · intro impossible
    rw [waits, unbuffering] at impossible
    contradiction
  · exact fun _ => none_

theorem handleSampled_counted (empty : unbuffered rules = true → slot.tokenBuffer = []) :
    Counted rules slot (handleSampled rules slot result) result := by
  cases buffering : unbuffered rules with
  | true =>
    have all : (sendLoop result.processed 0 0 [result.output]).1 = 1 := by
      unfold sendLoop sendLoop
      split_ifs <;> rfl
    rw [handleSampled, if_pos buffering]
    refine counted_of_unbuffered buffering (empty buffering) ?_ ?_
    · simp [sendTokenResults, all]
    · simp [sendTokenResults, all]
  | false =>
    rw [handleSampled, if_neg (by rw [buffering]; exact Bool.false_ne_true)]
    exact bufferAndCheck_counted buffering

theorem handleAccepted_counted (empty : unbuffered rules = true → slot.tokenBuffer = []) :
    Counted rules slot (handleAccepted rules slot result) result := by
  cases buffering : unbuffered rules with
  | true =>
    rw [handleAccepted, if_pos buffering]
    exact counted_of_unbuffered buffering (empty buffering) (by simp) (empty buffering)
  | false =>
    rw [handleAccepted, if_neg (by rw [buffering]; exact Bool.false_ne_true)]
    exact bufferAndCheck_counted buffering

structure Tracks (rules : BanRules) (initial : ℚ × ℚ) (state : AdaptiveSlot) : Prop where
  follows : Follows initial state.ctx state.kept
  size : state.kept.length = state.slot.sent.length + state.slot.tokenBuffer.length
  pending : state.pending = []
  enabled : 0 ≤ state.ctx.target
  unbuffered : unbuffered rules = true →
    state.rewindStatus = false ∧ state.slot.tokenBuffer = []

theorem nextRewindStatus_calm {rewindStatus : Bool}
    (stays : handledRewinds rules slot result = false)
    (unbuffered_ : unbuffered rules = true → rewindStatus = false)
    (waiting : waits rules slot result = true → rewindStatus = false) :
    nextRewindStatus rules slot result rewindStatus = false := by
  unfold nextRewindStatus
  split_ifs with unbuffering banned waits_
  · exact unbuffered_ unbuffering
  · rw [handledRewinds, banned, (Bool.not_eq_true _).mp unbuffering] at stays
    contradiction
  · exact waiting waits_
  · rfl

theorem afterToken_tracks {initial : ℚ × ℚ} {state : AdaptiveSlot} {slot next : BanSlot}
    {draw : AdaptiveDraw} (tracks : Tracks rules initial state)
    (sent : slot.sent = state.slot.sent) (buffer : slot.tokenBuffer = state.slot.tokenBuffer)
    (counted : Counted rules slot next draw.token) (keeps : KeepsToken rules state slot draw)
    (reviewed : Bool) (due : handledRewinds rules slot draw.token = true → reviewed = true) :
    Tracks rules initial (afterToken rules { state with ctx := samplingSample state.ctx draw }
      slot next draw reviewed) := by
  obtain ⟨decay, target⟩ := samplingSample_same state.ctx draw
  obtain ⟨drawn, history, drawnLength⟩ := samplingSample_history state.ctx draw
  have size := tracks.size
  rw [← sent, ← buffer] at size
  have enabled : 0 ≤ (samplingSample state.ctx draw).target := by
    rw [target]
    exact tracks.enabled
  have enabled_ : 0 ≤ (if reviewed then reviewAdaptiveP (samplingSample state.ctx draw)
      next.tokenBuffer.length
        (nextRewindStatus rules slot draw.token state.rewindStatus)
      else samplingSample state.ctx draw).target := by
    split
    · rw [(reviewAdaptiveP_same ..).2]
      exact enabled
    · exact enabled
  have status : unbuffered rules = true →
      nextRewindStatus rules slot draw.token state.rewindStatus = false := fun unbuffering => by
    rw [nextRewindStatus, if_pos unbuffering]
    exact (tracks.unbuffered unbuffering).1
  have unbuffered_ (unbuffering : unbuffered rules = true) :=
    And.intro (status unbuffering) (counted.unbuffered unbuffering)
  cases rewound : handledRewinds rules slot draw.token with
  | true =>
    obtain ⟨sameSent, bufferLength, less⟩ := counted.rewound rewound
    rw [KeepsToken, if_pos rewound, ← drawnLength] at keeps
    obtain ⟨begins, large⟩ := keeps
    have statusTrue : nextRewindStatus rules slot draw.token state.rewindStatus = true := by
      rw [handledRewinds, Bool.and_eq_true, Bool.not_eq_true'] at rewound
      rw [nextRewindStatus, if_neg (by rw [rewound.1]; exact Bool.false_ne_true),
        if_pos rewound.2]
    have keptEq : (state.kept ++ [draw.prob.value]).take
        (next.sent.length + next.tokenBuffer.length) =
          state.kept.take (slot.sent.length + keptInBuffer rules slot draw.token) := by
      rw [sameSent, bufferLength, take_append_of_le_length (by omega)]
    refine ⟨?_, ?_, tracks.pending, enabled_, unbuffered_⟩
    · rw [afterToken]
      rw [keptEq, due rewound, statusTrue, bufferLength]
      exact tracks.follows.rewind history decay enabled (by omega) (by omega) large
    · rw [afterToken]
      rw [keptEq, length_take, sameSent, bufferLength]
      omega
  | false =>
    have total := counted.stays rewound
    rw [KeepsToken, rewound] at keeps
    obtain ⟨once, calm⟩ := keeps
    have keptEq : (state.kept ++ [draw.prob.value]).take
        (next.sent.length + next.tokenBuffer.length) = state.kept ++ [draw.prob.value] := by
      refine take_of_length_le ?_
      rw [length_append, length_singleton]
      omega
    have sampled := tracks.follows.sample once
    refine ⟨?_, ?_, tracks.pending, enabled_, unbuffered_⟩
    · rw [afterToken]
      rw [keptEq]
      split
      · refine sampled.review _ ?_
        by_cases stale : waits rules slot draw.token = true ∧ state.rewindStatus = true
        · rw [counted.waiting stale.1, history, length_append, drawnLength]
          refine .inr (not_lt.mp fun large => calm ⟨stale.1, stale.2, large⟩)
        · refine .inl (nextRewindStatus_calm rewound (fun unbuffering =>
            (tracks.unbuffered unbuffering).1) fun waiting => ?_)
          exact (Bool.not_eq_true _).mp fun set => stale ⟨waiting, set⟩
      · exact sampled
    · rw [afterToken]
      dsimp only
      rw [keptEq, length_append, length_singleton]
      omega

theorem adaptiveStep_tracks {initial : ℚ × ℚ} {state next : AdaptiveSlot} {op : AdaptiveOp}
    (tracks : Tracks rules initial state) (keeps : KeepsHistory rules state op)
    (stepped : adaptiveStep rules state op = some next) : Tracks rules initial next := by
  unfold adaptiveStep at stepped
  rw [tracks.pending] at stepped
  split_ifs at stepped
  rename_i goesOn
  cases op with
  | sample draw =>
    cases stepped
    exact @afterToken_tracks _ _ _ (BanSlot.addSampledTokens state.slot []) _ _ tracks rfl rfl
      (handleSampled_counted fun unbuffering => (tracks.unbuffered unbuffering).2) keeps true
      fun _ => rfl
  | accept draft first rest =>
    cases stepped
    obtain ⟨rfl, keepsToken⟩ := keeps
    have reviewed (rewound : handledRewinds rules (commitDraws state draft [first]).slot
        first.token = true) : (!(handleAccepted rules (commitDraws state draft [first]).slot
          first.token).released) = true := by
      have runs : (commitDraws state draft [first]).slot.released = false :=
        (Bool.not_eq_true _).mp goesOn
      rw [(handleAccepted_rewound rewound).2.2]
      exact congrArg (!·) runs
    have handled := @afterToken_tracks _ _ _ (commitDraws state draft [first]).slot _ _ tracks rfl
      rfl (handleAccepted_counted fun unbuffering => (tracks.unbuffered unbuffering).2)
      keepsToken _ reviewed
    refine ⟨handled.follows, handled.size, ?_, handled.enabled, handled.unbuffered⟩
    rw [acceptOne]
    rw [ite_self]
  | next => contradiction

theorem adaptiveStart_tracks {prompt : List Int} {target decay : ℚ} {updtWCur : Bool}
    {first : AdaptiveDraw} (enabled : 0 ≤ target)
    (keeps : KeepsToken rules ⟨promptDecoded prompt, false, initAdaptiveP target decay updtWCur, [],
      []⟩ (promptDecoded prompt) first) :
    Tracks rules (initialEntry target decay)
      (adaptiveStart rules prompt (initAdaptiveP target decay updtWCur) first) := by
  refine @afterToken_tracks _ _ ⟨promptDecoded prompt, false, initAdaptiveP target decay
    updtWCur, [], []⟩ _ _ _ ⟨⟨?_⟩, rfl, rfl, enabled, fun _ => ⟨rfl, rfl⟩⟩ rfl rfl
      (handleSampled_counted fun _ => rfl) keeps true fun _ => rfl
  exact suffix_refl _

end

/-- In every run in which each token keeps the history, its last entry is that of the tokens that
are sent or in the buffer. -/
theorem remembers_of_run {prompt : List Int} {target decay : ℚ} {updtWCur : Bool}
    {first : AdaptiveDraw} {state : AdaptiveSlot} (enabled : 0 ≤ target)
    (keeps : KeepsToken rules ⟨promptDecoded prompt, false, initAdaptiveP target decay updtWCur, [],
      []⟩ (promptDecoded prompt) first)
    (run : Reaches (adaptiveStep rules) (KeepsHistory rules)
      (adaptiveStart rules prompt (initAdaptiveP target decay updtWCur) first) state) :
    Remembers (initialEntry target decay) state := by
  refine Follows.getLast (@Tracks.follows rules _ _ ?_)
  refine run.invariant (Tracks rules _) (adaptiveStart_tracks enabled keeps) ?_
  exact fun _ _ _ tracks keeps stepped => adaptiveStep_tracks tracks keeps stepped

def drawn (tok : Int) (text : Bytes) : AdaptiveDraw where
  prob := ⟨1 / (tok.toNat + 1), by positivity⟩
  token := plainToken tok text

def banXyz : BanRules := { banX with banPhrases := [[120, 121, 122]], nBuffer := 4 }

def phraseStart : AdaptiveSlot :=
  adaptiveStart banXyz [1] (initAdaptiveP (1 / 2) (1 / 2) false) (drawn 2 [120])

/-- The three tokens of a phrase go without a trace. -/
theorem remembers_of_run_at_phrase :
    ∃ state, runChecked (adaptiveStep banXyz) (KeepsHistory banXyz) phraseStart
        [.sample (drawn 3 [121]), .sample (drawn 4 [122])] = some state ∧
      Remembers (initialEntry (1 / 2) (1 / 2)) state := by
  have runs : (runChecked (adaptiveStep banXyz) (KeepsHistory banXyz) phraseStart
      [.sample (drawn 3 [121]), .sample (drawn 4 [122])]).isSome = true := by
    decide +kernel
  obtain ⟨state, run⟩ := isSome_iff_exists.mp runs
  exact ⟨state, run, remembers_of_run banXyz (by norm_num) (by decide +kernel)
    (reaches_of_runChecked _ _ _ run)⟩

/-- A phrase of one token behind another leaves its entry in the history. -/
theorem rewind_leaves_trace :
    ¬ ∀ state, Reaches (adaptiveStep banX) (fun _ _ => True)
      (adaptiveStart banX [1] (initAdaptiveP (1 / 2) (1 / 2) false) (drawn 2 [97])) state →
        Remembers (initialEntry (1 / 2) (1 / 2)) state := by
  intro always
  have remembers := always _ (.tail .refl trivial
    (show adaptiveStep banX _ (.sample (drawn 3 [120])) = _ from rfl))
  revert remembers
  unfold Remembers
  decide +kernel

end LlamaCpp.Server
