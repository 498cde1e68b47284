import LlamaCpp.Lib.Bytes
import LlamaCpp.Lib.Run
import Mathlib.Data.List.GetD

/-!
# Banned phrases

With banned phrases the sampled tokens wait in a buffer, and a phrase found in the buffer takes
the slot back to the token it begins in.  The position to go back to is counted from the end of
the token cache, which the accepted tokens of a draft enter all at once but the buffer one by one.
So the count is right for the last of them only.
-/

set_option autoImplicit false

namespace LlamaCpp.Server

open LlamaCpp.Lib List

/-- The `tok` and `text_to_send` of `completion_token_output`. -/
structure TokenOutput where
  tok : Int
  text : Bytes
deriving DecidableEq

/-- The banned phrases of a slot.  A pattern is its search: the position of the first match, and
none also for a pattern that does not compile. -/
structure BanRules where
  banPhrases : List Bytes
  banRegex : List (Bytes → Option Nat)
  banRegexCi : List (Bytes → Option Nat)
  nBuffer : Nat
  canBanPhrases : Bool
  rewindCountMax : Int

def stringLower (text : Bytes) : Bytes :=
  text.map fun c => if 65 ≤ c ∧ c ≤ 90 then c + 32 else c

def earlier (best found : Option Nat) : Option Nat :=
  match best, found with
  | some b, some f => if f < b then some f else some b
  | none, some f => some f
  | best, none => best

def BanRules.bestStart (rules : BanRules) (text : Bytes) : Option Nat :=
  (rules.banPhrases.map (fun phrase => findText phrase (stringLower text)) ++
    (rules.banRegex.map (fun search => search text) ++
      rules.banRegexCi.map fun search => search text)).foldl earlier none

/-- The index of the token whose text, from `offset` on, has `start` in it. -/
def tokenIdx (start : Nat) : Nat → List TokenOutput → Option Nat
  | _, [] => none
  | offset, output :: rest =>
    if offset ≤ start ∧ start < offset + output.text.length then some 0
    else (tokenIdx start (offset + output.text.length) rest).map (· + 1)

/-- What the string ban uses of a slot, and the tokens of its prompt and those sent so far. -/
structure BanSlot where
  prompt : List Int
  sent : List Int
  tokenBuffer : List TokenOutput
  cacheTokens : List Int
  sampled : Int
  nPast : Int
  rewindCount : Nat
  released : Bool
deriving DecidableEq

/-- What `process_token` answers, and whether the limit is then the only reason to stop. -/
structure Processed where
  hasNext : Bool
  limitOnly : Bool

/-- A sampled token with the answers of `has_next_token` and of the calls of `process_token`. -/
structure SampledToken where
  output : TokenOutput
  hasNextToken : Bool
  processed : Nat → Processed

variable (rules : BanRules)

def checkBanPhrase (slot : BanSlot) : Int :=
  match rules.bestStart (slot.tokenBuffer.flatMap TokenOutput.text) with
  | none => -1
  | some start =>
    match tokenIdx start 0 slot.tokenBuffer with
    | none => -1
    | some idx => slot.nPast - slot.tokenBuffer.length + 1 + idx

def rewindContext (slot : BanSlot) (banPos : Int) : BanSlot :=
  let bufferStartPos := slot.nPast - slot.tokenBuffer.length + 1
  let nKeepBuffer := (banPos - bufferStartPos).toNat
  let nKeepCache := min (banPos - 1).toNat slot.cacheTokens.length
  let cache := slot.cacheTokens.take nKeepCache
  let padding := List.replicate (nKeepBuffer - slot.tokenBuffer.length) ⟨0, []⟩
  { slot with
    rewindCount := slot.rewindCount + 1
    sampled := slot.cacheTokens.getD nKeepCache 0
    cacheTokens := cache
    nPast := cache.length
    tokenBuffer := slot.tokenBuffer.take nKeepBuffer ++ padding }

/-- The loop of `send_token_results`: how many results it processes and whether it releases the
slot. -/
def sendLoop (processed : Nat → Processed) (n : Nat) : Nat → List TokenOutput → Nat × Bool
  | count, [] => (count, false)
  | count, _ :: rest =>
    if (processed count).hasNext = false then
      if (processed count).limitOnly then sendLoop processed n (count + 1) rest
      else (count + 1, true)
    else if 0 < n ∧ n ≤ count + 1 then (count + 1, false)
    else sendLoop processed n (count + 1) rest

/-- `send_token_results` of the buffer; `n = 0` is all of it. -/
def sendTokenResults (processed : Nat → Processed) (slot : BanSlot) (n : Nat) : BanSlot :=
  let count := (sendLoop processed n 0 slot.tokenBuffer).1
  let limited := decide (0 < count) && (processed (count - 1)).limitOnly
  { slot with
    sent := slot.sent ++ (slot.tokenBuffer.take count).map TokenOutput.tok
    sampled := (slot.tokenBuffer.getLast?.map TokenOutput.tok).getD slot.sampled
    tokenBuffer := slot.tokenBuffer.drop count
    released := (sendLoop processed n 0 slot.tokenBuffer).2 || limited }

def allowRewind (slot : BanSlot) : Bool :=
  let totalBans := rules.banPhrases.length + rules.banRegex.length + rules.banRegexCi.length
  if rules.rewindCountMax = -1 then
    !(decide (20 ≤ slot.rewindCount) && decide (2 * totalBans < slot.rewindCount))
  else if 0 < rules.rewindCountMax then decide ((slot.rewindCount : Int) < rules.rewindCountMax)
  else true

def pushOutput (slot : BanSlot) (output : TokenOutput) : BanSlot :=
  { slot with tokenBuffer := slot.tokenBuffer ++ [output] }

def rewinds (slot : BanSlot) : Bool :=
  decide (0 ≤ checkBanPhrase rules slot) && allowRewind rules slot

def bufferAndCheckStringBan (slot : BanSlot) (result : SampledToken) : BanSlot :=
  let pushed := pushOutput slot result.output
  if rewinds rules pushed then rewindContext pushed (checkBanPhrase rules pushed)
  else if rules.nBuffer ≤ pushed.tokenBuffer.length ∨ result.hasNextToken = false then
    sendTokenResults result.processed { pushed with rewindCount := 0 }
      (if result.hasNextToken then 1 else 0)
  else { pushed with sampled := result.output.tok }

def unbuffered : Bool := decide (rules.nBuffer = 0) || !rules.canBanPhrases

/-- The token that `update_slots` samples of a slot without a draft. -/
def handleSampled (slot : BanSlot) (result : SampledToken) : BanSlot :=
  if unbuffered rules then
    sendTokenResults result.processed { slot with tokenBuffer := [result.output] } 0
  else bufferAndCheckStringBan rules slot result

/-- One accepted token of `speculative_decoding_accept`. -/
def handleAccepted (slot : BanSlot) (result : SampledToken) : BanSlot :=
  if unbuffered rules then
    { slot with
      sent := slot.sent ++ [result.output.tok]
      sampled := result.output.tok
      released := !(result.processed 0).hasNext }
  else bufferAndCheckStringBan rules slot result

/-- The loop of `speculative_decoding_accept`, which a released slot leaves. -/
def acceptLoop : List SampledToken → BanSlot → BanSlot
  | [], slot => slot
  | result :: rest, slot =>
    let next := handleAccepted rules slot result
    if next.released then next else acceptLoop rest next

def BanSlot.addSampledTokens (slot : BanSlot) (draft : List Int) : BanSlot :=
  let cache := slot.cacheTokens ++ slot.sampled :: draft
  { slot with cacheTokens := cache, nPast := cache.length }

def commitAccepted (slot : BanSlot) (nDraft : Nat) (ids : List SampledToken) : BanSlot :=
  let toks := ids.map fun result => result.output.tok
  let cache := slot.cacheTokens.take (slot.cacheTokens.length - nDraft) ++ toks.dropLast
  { slot with
    cacheTokens := cache
    sampled := toks.getLast?.getD slot.sampled
    nPast := cache.length }

/-- A decoded batch: one token sampled, or a draft and the tokens accepted of it. -/
inductive GenerationOp
  | sample (result : SampledToken)
  | accept (draft : List Int) (ids : List SampledToken)

def generationStep (slot : BanSlot) (op : GenerationOp) : Option BanSlot :=
  if slot.released then none
  else
    match op with
    | .sample result => some (handleSampled rules (BanSlot.addSampledTokens slot []) result)
    | .accept draft ids =>
      if ids = [] then none
      else some (acceptLoop rules ids (commitAccepted (BanSlot.addSampledTokens slot draft) draft.length ids))

def promptDecoded (prompt : List Int) : BanSlot where
  prompt := prompt
  sent := []
  tokenBuffer := []
  cacheTokens := prompt
  sampled := 0
  nPast := prompt.length
  rewindCount := 0
  released := false

def BanSlot.contents (slot : BanSlot) : List Int :=
  slot.prompt ++ (slot.sent ++ slot.tokenBuffer.map TokenOutput.tok)

def BufferMatches (slot : BanSlot) : Prop :=
  slot.contents = slot.cacheTokens ++ [slot.sampled]

instance (slot : BanSlot) : Decidable (BufferMatches slot) :=
  inferInstanceAs (Decidable (slot.contents = slot.cacheTokens ++ [slot.sampled]))

/-- The cache runs ahead of the buffer by tokens that the buffer has not got yet. -/
structure Ahead (slot : BanSlot) (toks : List Int) (last : Int) : Prop where
  ends : toks.getLast? = some last
  tokens : slot.contents ++ toks = slot.cacheTokens ++ [last]
  nPast : slot.nPast = slot.cacheTokens.length
  prompt : slot.prompt ≠ []
  unbuffered : unbuffered rules = true → slot.tokenBuffer = []

structure Steady (slot : BanSlot) : Prop where
  tokens : BufferMatches slot
  nPast : slot.nPast = slot.cacheTokens.length
  prompt : slot.prompt ≠ []
  unbuffered : unbuffered rules = true → slot.tokenBuffer = []

/-- The token has gone into the buffer or out, and nothing else has changed. -/
structure Taken (slot next : BanSlot) (tok : Int) : Prop where
  contents : next.contents = slot.contents ++ [tok]
  prompt : next.prompt = slot.prompt
  cacheTokens : next.cacheTokens = slot.cacheTokens
  nPast : next.nPast = slot.nPast
  sampled : next.sampled = tok

section Handling

variable {rules} {slot : BanSlot}

theorem tokenIdx_lt {start offset idx : Nat} {buffer : List TokenOutput}
    (found : tokenIdx start offset buffer = some idx) : idx < buffer.length := by
  induction buffer generalizing offset idx with
  | nil => contradiction
  | cons output rest ih =>
    rw [tokenIdx] at found
    split_ifs at found with here
    · cases found
      exact Nat.zero_lt_succ _
    · obtain ⟨earlier, later, rfl⟩ := Option.map_eq_some_iff.mp found
      exact Nat.succ_lt_succ (ih later)

theorem checkBanPhrase_eq (found : 0 ≤ checkBanPhrase rules slot) :
    ∃ idx < slot.tokenBuffer.length,
      checkBanPhrase rules slot = slot.nPast - slot.tokenBuffer.length + 1 + idx := by
  unfold checkBanPhrase at found ⊢
  split at found
  · contradiction
  · split at found
    · contradiction
    · rename_i idx here
      exact ⟨idx, tokenIdx_lt here, rfl⟩

theorem sendTokenResults_contents (processed : Nat → Processed) (slot : BanSlot) (n : Nat) :
    (sendTokenResults processed slot n).contents = slot.contents := by
  simp [BanSlot.contents, sendTokenResults]

theorem pushOutput_contents (slot : BanSlot) (output : TokenOutput) :
    (pushOutput slot output).contents = slot.contents ++ [output.tok] := by
  simp [BanSlot.contents, pushOutput]

theorem sendTokenResults_taken (processed : Nat → Processed) (n rewound : Nat)
    (output : TokenOutput) :
    Taken slot (sendTokenResults processed
      { pushOutput slot output with rewindCount := rewound } n) output.tok where
  contents := by
    rw [sendTokenResults_contents]
    exact pushOutput_contents slot output
  prompt := rfl
  cacheTokens := rfl
  nPast := rfl
  sampled := by simp [sendTokenResults, pushOutput]

def handledRewinds (rules : BanRules) (slot : BanSlot) (result : SampledToken) : Bool :=
  !unbuffered rules && rewinds rules (pushOutput slot result.output)

variable {result : SampledToken} {next : BanSlot} {tok last : Int} {rest : List Int}
  {output : TokenOutput}

theorem bufferAndCheck_taken (stays : rewinds rules (pushOutput slot result.output) = false) :
    Taken slot (bufferAndCheckStringBan rules slot result) result.output.tok := by
  unfold bufferAndCheckStringBan
  rw [if_neg (by rw [stays]; exact Bool.false_ne_true)]
  split_ifs
  · exact sendTokenResults_taken _ _ _ _
  · exact sendTokenResults_taken _ _ _ _
  · exact ⟨pushOutput_contents slot result.output, rfl, rfl, rfl, rfl⟩

theorem handleAccepted_taken (stays : handledRewinds rules slot result = false)
    (empty : unbuffered rules = true → slot.tokenBuffer = []) :
    Taken slot (handleAccepted rules slot result) result.output.tok ∧
      (unbuffered rules = true → (handleAccepted rules slot result).tokenBuffer = []) := by
  unfold handleAccepted
  cases buffering : unbuffered rules with
  | true =>
    have nothing := empty buffering
    exact ⟨⟨by simp [BanSlot.contents, nothing], rfl, rfl, rfl, rfl⟩, fun _ => nothing⟩
  | false =>
    rw [handledRewinds, buffering] at stays
    exact ⟨bufferAndCheck_taken stays, fun impossible => absurd impossible.symm Bool.false_ne_true.symm⟩

theorem Taken.ahead (taken : Taken slot next tok) (ahead : Ahead rules slot (tok :: rest) last)
    (more : rest ≠ []) (empty : unbuffered rules = true → next.tokenBuffer = []) :
    Ahead rules next rest last where
  ends := by
    rw [← ahead.ends, List.getLast?_cons_of_ne_nil more]
  tokens := by
    rw [taken.contents, taken.cacheTokens, ← ahead.tokens, append_assoc, singleton_append]
  nPast := by rw [taken.nPast, taken.cacheTokens, ahead.nPast]
  prompt := taken.prompt ▸ ahead.prompt
  unbuffered := empty

theorem Taken.steady (taken : Taken slot next tok) (ahead : Ahead rules slot [tok] last)
    (empty : unbuffered rules = true → next.tokenBuffer = []) : Steady rules next where
  tokens := by
    have same : tok = last := Option.some.inj ahead.ends
    rw [BufferMatches, taken.contents, taken.cacheTokens, taken.sampled, ahead.tokens, same]
  nPast := by rw [taken.nPast, taken.cacheTokens, ahead.nPast]
  prompt := taken.prompt ▸ ahead.prompt
  unbuffered := empty

theorem Taken.not_matches (taken : Taken slot next tok)
    (ahead : Ahead rules slot (tok :: rest) last) (more : rest ≠ []) : ¬ BufferMatches next := by
  intro matching
  have lengths := congrArg List.length matching
  have before := congrArg List.length ahead.tokens
  have positive := length_pos_of_ne_nil more
  rw [taken.contents, taken.cacheTokens] at lengths
  simp only [length_append, length_cons, length_nil] at lengths before
  omega

/-- A rewind with `missing` tokens still to come cuts the cache that much too late. -/
theorem rewindContext_eq {idx : Nat} (ahead : Ahead rules slot (output.tok :: rest) last)
    (inside : idx < (pushOutput slot output).tokenBuffer.length)
    (found : checkBanPhrase rules (pushOutput slot output) = (pushOutput slot output).nPast - (pushOutput slot output).tokenBuffer.length + 1 + idx) :
    let next := rewindContext (pushOutput slot output) (checkBanPhrase rules (pushOutput slot output))
    next.contents = (slot.contents ++ [output.tok]).take
        (slot.prompt.length + slot.sent.length + idx) ∧
      next.cacheTokens = slot.cacheTokens.take
        (slot.prompt.length + slot.sent.length + idx + rest.length - 1) ∧
      next.sampled = slot.cacheTokens.getD
        (slot.prompt.length + slot.sent.length + idx + rest.length - 1) 0 ∧
      slot.prompt.length + slot.sent.length + idx + rest.length ≤ slot.cacheTokens.length := by
  have lengths := congrArg List.length ahead.tokens
  have nPast := ahead.nPast
  have buffered : (pushOutput slot output).tokenBuffer.length = slot.tokenBuffer.length + 1 := by
    simp [pushOutput]
  simp only [BanSlot.contents, length_append, length_map, length_cons,
    length_nil] at lengths
  have keepBuffer : (checkBanPhrase rules (pushOutput slot output) -
      ((pushOutput slot output).nPast - (pushOutput slot output).tokenBuffer.length + 1)).toNat =
      idx := by omega
  have keepCache : min (checkBanPhrase rules (pushOutput slot output) - 1).toNat
      slot.cacheTokens.length = slot.prompt.length + slot.sent.length + idx + rest.length - 1 := by
    have same : (pushOutput slot output).nPast = slot.nPast := rfl
    omega
  have cut : (slot.contents ++ [output.tok]).take
      (slot.prompt.length + slot.sent.length + idx) =
      slot.prompt ++ (slot.sent ++
        ((pushOutput slot output).tokenBuffer.take idx).map TokenOutput.tok) := by
    rw [← pushOutput_contents, add_assoc, map_take]
    exact (take_length_add_append _).trans
      (congrArg (slot.prompt ++ ·) (take_length_add_append _))
  refine ⟨?_, ?_, ?_, by omega⟩
  · rw [cut]
    simp only [rewindContext, keepBuffer]
    rw [Nat.sub_eq_zero_of_le (Nat.le_of_lt inside), replicate_zero, append_nil]
    rfl
  · exact congrArg (fun n => slot.cacheTokens.take n) keepCache
  · exact congrArg (fun n => slot.cacheTokens.getD n 0) keepCache

theorem rewind_steady (ahead : Ahead rules slot [output.tok] last)
    (buffering : unbuffered rules = false)
    (rewound : rewinds rules (pushOutput slot output) = true) : Steady rules
      (rewindContext (pushOutput slot output) (checkBanPhrase rules (pushOutput slot output))) := by
  rw [rewinds, Bool.and_eq_true, decide_eq_true_eq] at rewound
  obtain ⟨idx, inside, found⟩ := checkBanPhrase_eq rewound.1
  obtain ⟨contents, cache, sampled, fits⟩ := rewindContext_eq ahead inside found
  have prompt := length_pos_of_ne_nil ahead.prompt
  rw [length_nil, add_zero] at sampled fits
  have split : slot.prompt.length + slot.sent.length + idx =
      slot.prompt.length + slot.sent.length + idx - 1 + 1 := by omega
  refine ⟨?_, rfl, ahead.prompt, fun impossible => ?_⟩
  · rw [BufferMatches, contents, cache, sampled, ahead.tokens, take_append_of_le_length fits,
      getD_eq_getElem _ _ (by omega)]
    conv_lhs => rw [split]
    exact take_succ_eq_append_getElem (by omega)
  · rw [buffering] at impossible
    contradiction

theorem rewind_not_matches (ahead : Ahead rules slot (output.tok :: rest) last) (more : rest ≠ [])
    (rewound : rewinds rules (pushOutput slot output) = true) : ¬ BufferMatches
      (rewindContext (pushOutput slot output) (checkBanPhrase rules (pushOutput slot output))) := by
  intro matching
  rw [rewinds, Bool.and_eq_true, decide_eq_true_eq] at rewound
  obtain ⟨idx, inside, found⟩ := checkBanPhrase_eq rewound.1
  obtain ⟨contents, cache, -, fits⟩ := rewindContext_eq ahead inside found
  have positive := length_pos_of_ne_nil more
  have lengths := congrArg List.length matching
  have before := congrArg List.length ahead.tokens
  rw [contents, cache] at lengths
  simp only [length_append, length_cons, length_take]
    at lengths
  omega

theorem handleAccepted_rewound (rewound : handledRewinds rules slot result = true) :
    unbuffered rules = false ∧ rewinds rules (pushOutput slot result.output) = true ∧
      handleAccepted rules slot result = rewindContext (pushOutput slot result.output)
        (checkBanPhrase rules (pushOutput slot result.output)) := by
  rw [handledRewinds, Bool.and_eq_true, Bool.not_eq_true'] at rewound
  refine ⟨rewound.1, rewound.2, ?_⟩
  rw [handleAccepted, if_neg (by rw [rewound.1]; exact Bool.false_ne_true)]
  exact if_pos rewound.2

theorem handleAccepted_steady (ahead : Ahead rules slot [result.output.tok] last) :
    Steady rules (handleAccepted rules slot result) := by
  cases rewound : handledRewinds rules slot result with
  | true =>
    obtain ⟨buffering, found, same⟩ := handleAccepted_rewound rewound
    rw [same]
    exact rewind_steady ahead buffering found
  | false =>
    obtain ⟨taken, empty⟩ := handleAccepted_taken rewound ahead.unbuffered
    exact taken.steady ahead empty

theorem handleSampled_steady (ahead : Ahead rules slot [result.output.tok] last) :
    Steady rules (handleSampled rules slot result) := by
  unfold handleSampled
  cases buffering : unbuffered rules with
  | true =>
    have nothing := ahead.unbuffered buffering
    have pushed : { slot with tokenBuffer := [result.output] } =
        { pushOutput slot result.output with rewindCount := slot.rewindCount } := by
      simp [pushOutput, nothing]
    rw [pushed]
    refine (sendTokenResults_taken _ _ _ _).steady ahead fun _ => ?_
    have all : (sendLoop result.processed 0 0 [result.output]).1 = 1 := by
      unfold sendLoop sendLoop
      split_ifs <;> rfl
    simp [sendTokenResults, pushOutput, nothing, all]
  | false =>
    have accepted := handleAccepted_steady ahead
    rw [handleAccepted, buffering] at accepted
    rwa [if_neg Bool.false_ne_true]

end Handling

def RewindsMatch : List SampledToken → BanSlot → Prop
  | [], _ => True
  | result :: rest, slot =>
    let next := handleAccepted rules slot result
    (handledRewinds rules slot result = true → BufferMatches next) ∧
      (next.released = false → RewindsMatch rest next)

def Quiet : List SampledToken → BanSlot → Prop
  | [], _ => True
  | [_], _ => True
  | result :: later :: rest, slot =>
    let next := handleAccepted rules slot result
    handledRewinds rules slot result = false ∧ next.released = false ∧ Quiet (later :: rest) next

def toks (ids : List SampledToken) : List Int := ids.map fun result => result.output.tok

section Accepting

variable {rules}

variable {last : Int}

theorem handleAccepted_ahead {slot : BanSlot} {result : SampledToken} {rest : List Int}
    (ahead : Ahead rules slot (result.output.tok :: rest) last) (more : rest ≠ [])
    (stays : handledRewinds rules slot result = false) :
    Ahead rules (handleAccepted rules slot result) rest last ∧
      ¬ BufferMatches (handleAccepted rules slot result) := by
  obtain ⟨taken, empty⟩ := handleAccepted_taken stays ahead.unbuffered
  exact ⟨taken.ahead ahead more empty, taken.not_matches ahead more⟩

theorem acceptLoop_steady {ids : List SampledToken} {slot : BanSlot}
    (ahead : Ahead rules slot (toks ids) last) (quiet : Quiet rules ids slot) :
    Steady rules (acceptLoop rules ids slot) ∧ RewindsMatch rules ids slot := by
  induction ids generalizing slot with
  | nil => exact absurd ahead.ends (by simp [toks])
  | cons result rest ih =>
    cases rest with
    | nil =>
      have steady := handleAccepted_steady ahead
      rw [acceptLoop]
      exact ⟨by split_ifs <;> exact steady, fun _ => steady.tokens, fun _ => trivial⟩
    | cons later rest =>
      obtain ⟨stays, runs, quietLater⟩ := quiet
      obtain ⟨next, -⟩ := handleAccepted_ahead ahead (cons_ne_nil _ _) stays
      obtain ⟨steady, matching⟩ := ih next quietLater
      rw [acceptLoop]
      rw [if_neg (by rw [runs]; exact Bool.false_ne_true)]
      refine ⟨steady, fun impossible => ?_, fun _ => matching⟩
      rw [stays] at impossible
      contradiction

theorem quiet_of_matches {ids : List SampledToken} {slot : BanSlot}
    (ahead : Ahead rules slot (toks ids) last) (rewound : RewindsMatch rules ids slot)
    (final : BufferMatches (acceptLoop rules ids slot)) : Quiet rules ids slot := by
  induction ids generalizing slot with
  | nil => trivial
  | cons result rest ih =>
    cases rest with
    | nil => trivial
    | cons later rest =>
      have more : toks (later :: rest) ≠ [] := cons_ne_nil _ _
      have stays : handledRewinds rules slot result = false := by
        by_contra found
        have rewinding := Bool.not_eq_false _ ▸ found
        obtain ⟨-, banned, same⟩ := handleAccepted_rewound rewinding
        have matching := rewound.1 rewinding
        rw [same] at matching
        exact rewind_not_matches ahead more banned matching
      obtain ⟨next, short⟩ := handleAccepted_ahead ahead more stays
      rw [acceptLoop] at final
      cases runs : (handleAccepted rules slot result).released with
      | true =>
        rw [if_pos runs] at final
        exact absurd final short
      | false =>
        rw [if_neg (by rw [runs]; exact Bool.false_ne_true)] at final
        exact ⟨stays, runs, ih next (rewound.2 runs) final⟩

end Accepting

def KeepsBuffer (slot : BanSlot) : GenerationOp → Prop
  | .sample result => BufferMatches (handleSampled rules (BanSlot.addSampledTokens slot []) result)
  | .accept draft ids =>
    let committed := commitAccepted (BanSlot.addSampledTokens slot draft) draft.length ids
    RewindsMatch rules ids committed ∧ BufferMatches (acceptLoop rules ids committed)

def QuietOp (slot : BanSlot) : GenerationOp → Prop
  | .sample _ => True
  | .accept draft ids =>
    Quiet rules ids (commitAccepted (BanSlot.addSampledTokens slot draft) draft.length ids)

section Generating

variable {rules} {slot : BanSlot}

section

variable (steady : Steady rules slot)
include steady

theorem sampled_ahead (tok : Int) :
    Ahead rules (BanSlot.addSampledTokens slot []) [tok] tok where
  ends := rfl
  tokens := by
    have same : (BanSlot.addSampledTokens slot []).contents = slot.contents := rfl
    rw [same, steady.tokens]
    rfl
  nPast := rfl
  prompt := steady.prompt
  unbuffered := steady.unbuffered

theorem committed_ahead (draft : List Int) {ids : List SampledToken}
    (some : ids ≠ []) : ∃ last,
      Ahead rules (commitAccepted (BanSlot.addSampledTokens slot draft) draft.length ids) (toks ids) last := by
  have more : toks ids ≠ [] := by simpa [toks] using some
  have cut : (slot.cacheTokens ++ slot.sampled :: draft).take
      ((slot.cacheTokens ++ slot.sampled :: draft).length - draft.length) =
      slot.cacheTokens ++ [slot.sampled] := by
    rw [append_cons, length_append, Nat.add_sub_cancel, take_left]
  refine ⟨(toks ids).getLast more, List.getLast?_eq_some_getLast more, ?_, rfl, steady.prompt,
    steady.unbuffered⟩
  have same : (commitAccepted (BanSlot.addSampledTokens slot draft) draft.length ids).contents =
      slot.contents := rfl
  rw [same, steady.tokens]
  simp only [commitAccepted, BanSlot.addSampledTokens]
  rw [cut, append_assoc _ (List.dropLast _)]
  exact congrArg _ (dropLast_append_getLast more).symm

theorem Steady.keeps_iff {op : GenerationOp} {next : BanSlot}
    (stepped : generationStep rules slot op = some next) :
    KeepsBuffer rules slot op ↔ QuietOp rules slot op := by
  cases op with
  | sample result =>
    exact iff_of_true (handleSampled_steady (sampled_ahead steady _)).tokens trivial
  | accept draft ids =>
    have some : ids ≠ [] := by
      rintro rfl
      simp [generationStep] at stepped
    obtain ⟨last, ahead⟩ := committed_ahead steady draft some
    constructor
    · rintro ⟨rewound, final⟩
      exact quiet_of_matches ahead rewound final
    · intro quiet
      obtain ⟨after, rewound⟩ := acceptLoop_steady ahead quiet
      exact ⟨rewound, after.tokens⟩

theorem Steady.step {op : GenerationOp} {next : BanSlot}
    (quiet : QuietOp rules slot op) (stepped : generationStep rules slot op = some next) :
    Steady rules next := by
  unfold generationStep at stepped
  split_ifs at stepped
  cases op with
  | sample result =>
    cases stepped
    exact handleSampled_steady (sampled_ahead steady _)
  | accept draft ids =>
    dsimp only at stepped
    split_ifs at stepped with none
    cases stepped
    obtain ⟨last, ahead⟩ := committed_ahead steady draft none
    exact (acceptLoop_steady ahead quiet).1

end

theorem promptDecoded_ahead {prompt : List Int} (some : prompt ≠ []) (tok : Int) :
    Ahead rules (promptDecoded prompt) [tok] tok where
  ends := rfl
  tokens := by simp [BanSlot.contents, promptDecoded]
  nPast := rfl
  prompt := some
  unbuffered _ := rfl

/-- In every generation in which only the last token accepted of a draft completes a banned phrase
or ends the generation, the prompt, the tokens sent and the buffer are the token cache and the
pending token; and a batch keeps this exactly when that holds of it. -/
theorem bufferMatches_of_run {prompt : List Int} (some : prompt ≠ []) {first : SampledToken}
    (run : Reaches (generationStep rules) (QuietOp rules)
      (handleSampled rules (promptDecoded prompt) first) slot) :
    BufferMatches slot ∧ ∀ op next, generationStep rules slot op = Option.some next →
      (KeepsBuffer rules slot op ↔ QuietOp rules slot op) := by
  have steady : Steady rules slot := by
    refine run.invariant (Steady rules) (handleSampled_steady (promptDecoded_ahead some _)) ?_
    intro state op next steady quiet stepped
    exact steady.step quiet stepped
  exact ⟨steady.tokens, fun op next stepped => steady.keeps_iff stepped⟩

end Generating

def banX : BanRules where
  banPhrases := [[120]]
  banRegex := []
  banRegexCi := []
  nBuffer := 3
  canBanPhrases := true
  rewindCountMax := -1

def plainToken (tok : Int) (text : Bytes) : SampledToken where
  output := ⟨tok, text⟩
  hasNextToken := true
  processed _ := ⟨true, false⟩

/-- A phrase in a single token. -/
theorem bufferMatches_of_run_at_phrase :
    BufferMatches (handleSampled banX (BanSlot.addSampledTokens
      (handleSampled banX (promptDecoded [1]) (plainToken 2 [97])) []) (plainToken 3 [120])) := by
  have run : Reaches (generationStep banX) (QuietOp banX)
      (handleSampled banX (promptDecoded [1]) (plainToken 2 [97])) _ :=
    .tail .refl (show QuietOp banX _ (.sample (plainToken 3 [120])) from trivial) rfl
  exact (bufferMatches_of_run (cons_ne_nil _ _) run).1

/-- Of three accepted tokens the first completes the phrase; it stays in the token cache. -/
theorem accept_keeps_banned :
    ¬ ∀ slot, Reaches (generationStep banX) (fun _ _ => True)
      (handleSampled banX (promptDecoded [1]) (plainToken 2 [97])) slot → BufferMatches slot := by
  intro always
  have matching := always _ (.tail .refl trivial
    (show generationStep banX _ (.accept [3, 4]
      [plainToken 3 [120], plainToken 4 [98], plainToken 5 [99]]) = _ from rfl))
  revert matching
  decide +kernel

end LlamaCpp.Server
