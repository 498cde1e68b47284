import LlamaCpp.Sampling.Checkpoint
import LlamaCpp.Sampling.Lossless

/-!
# Conditional biases while a draft is accepted

`common_expiring_logit_bias_apply` adds the bias of an entry when the text at the end of a
window meets its condition.  While `common_sampler_sample_and_accept_n` goes along a draft, the
pieces of the accepted tokens are collected in `drafted_text`; but the window is then the kept
tail of the generated text alone, so that the biases are those of the whole text exactly when
each condition is decided alike by both.

The tokens and biases of a state never change while tokens are sampled; they are kept beside
the sampler, one for each of its states.  What the entries without biases do to the sampling
parameters is left out.
-/

set_option autoImplicit false

namespace LlamaCpp.Sampling

open LlamaCpp.Lib LlamaCpp.Common List

structure ElbToken (F : Type) where
  id : Token
  bias : F
  duration : Nat
  cond : Text
deriving DecidableEq

/-- The tokens of an `elb_state`, which the server sorts by duration in descending order. -/
structure ElbTokens (F : Type) where
  firstTokens : List (ElbToken F)
  otherTokens : List (ElbToken F)
  maxCondLen : Int
  firstSorted : firstTokens.Pairwise fun a b => b.duration ≤ a.duration
  otherSorted : otherTokens.Pairwise fun a b => b.duration ≤ a.duration

structure AddedBiases (F : Type) where
  other : List (ElbToken F)
  first : List (ElbToken F)
deriving DecidableEq

section

variable {F : Type}

/-- `index_first_inactive`: the first entry with a duration below the count. -/
def indexFirstInactive (countup : Nat) (tokens : List (ElbToken F)) : Nat :=
  tokens.findIdx fun token => decide (token.duration < countup)

def activeTokens (countup : Nat) (tokens : List (ElbToken F)) : List (ElbToken F) :=
  match tokens with
  | [] => []
  | front :: _ =>
    if countup < front.duration then tokens.take (indexFirstInactive countup tokens) else []

def stringEndsWith (str suffix : Text) : Bool := suffix.isSuffixOf str

def int32Length (text : Text) : Int := (text.length : Int).bmod (2 ^ 32)

def keptTail (maxCondLen : Int) (text : Text) : Text :=
  text.drop (max 0 (int32Length text - maxCondLen)).toNat

/-- `search_window`; the drafted text is appended only where there is no generated text. -/
def searchWindow (maxCondLen : Int) (generatedText : Option Text) (draftedText : Text) : Text :=
  if draftedText ≠ [] then
    match generatedText with
    | some text => keptTail maxCondLen text
    | none => [] ++ draftedText
  else
    match generatedText with
    | some text => text
    | none => []

/-- The loops of `common_expiring_logit_bias_apply` over the tokens of a state. -/
def addedBiases (tokens : ElbTokens F) (countup : Nat) (window : Text) : AddedBiases F where
  other :=
    if window ≠ [] then
      (activeTokens countup tokens.otherTokens).filter fun token => stringEndsWith window token.cond
    else []
  first :=
    if window = [] then activeTokens countup tokens.firstTokens
    else
      (activeTokens countup tokens.firstTokens).filter fun token =>
        !stringEndsWith window token.cond

/-- `logits[id] += bias`. -/
def addBias [Add F] (logits : Token → F) (token : ElbToken F) : Token → F :=
  Function.update logits token.id (logits token.id + token.bias)

end

section

variable {T : SamplerTypes} {F : Type}

/-- The conditional biases that `common_expiring_logit_bias_apply` adds for the next position. -/
def conditionalBiases (config : List (ElbTokens F)) (s : CommonSampler T) : AddedBiases F :=
  match s.elbStates[s.elbIdx]?, config[s.elbIdx]? with
  | some elb, some tokens =>
    addedBiases tokens elb.countup (searchWindow tokens.maxCondLen s.generatedText s.draftedText)
  | _, _ => ⟨[], []⟩

def biasedLogits [Add F] (config : List (ElbTokens F)) (s : CommonSampler T) (logits : Token → F) :
    Token → F :=
  ((conditionalBiases config s).other ++ (conditionalBiases config s).first).foldl addBias logits

def CommonSampler.withoutDraft (s : CommonSampler T) : CommonSampler T :=
  { s with generatedText := some (s.generatedText.getD [] ++ s.draftedText), draftedText := [] }

end

section

variable {F : Type}

def Met (window cond : Text) : Prop := window ≠ [] ∧ cond <:+ window

instance (window cond : Text) : Decidable (Met window cond) :=
  inferInstanceAs (Decidable (_ ∧ _))

theorem filter_eq_filter_iff {α : Type} {entries : List α} {keep other : α → Bool} :
    entries.filter keep = entries.filter other ↔ ∀ entry ∈ entries, keep entry = other entry := by
  constructor
  · intro same entry member
    apply Bool.eq_iff_iff.mpr
    have kept := congrArg (entry ∈ ·) same
    simp only [mem_filter, member, true_and] at kept
    exact kept.to_iff
  · exact fun agree => filter_congr agree

theorem addedBiases_other (tokens : ElbTokens F) (countup : Nat) (window : Text) :
    (addedBiases tokens countup window).other =
      (activeTokens countup tokens.otherTokens).filter fun token =>
        decide (Met window token.cond) := by
  unfold addedBiases
  split
  · rename_i some_
    apply filter_congr
    intro token _
    simp only [Met, some_, stringEndsWith, ne_eq, not_false_eq_true, true_and]
    exact Bool.eq_iff_iff.mpr (by rw [isSuffixOf_iff_suffix, decide_eq_true_eq])
  · rename_i empty
    symm
    apply filter_eq_nil_iff.mpr
    intro token _ met
    exact empty (of_decide_eq_true met).1

theorem addedBiases_first (tokens : ElbTokens F) (countup : Nat) (window : Text) :
    (addedBiases tokens countup window).first =
      (activeTokens countup tokens.firstTokens).filter fun token =>
        !decide (Met window token.cond) := by
  unfold addedBiases
  dsimp only
  split
  · rename_i empty
    symm
    apply filter_eq_self.mpr
    intro token _
    simp [Met, empty]
  · rename_i some_
    apply filter_congr
    intro token _
    simp only [Met, some_, stringEndsWith, ne_eq, not_false_eq_true, true_and]
    congr 1
    exact Bool.eq_iff_iff.mpr (by rw [isSuffixOf_iff_suffix, decide_eq_true_eq])

theorem addedBiases_eq_iff (tokens : ElbTokens F) (countup : Nat) (window other : Text) :
    addedBiases tokens countup window = addedBiases tokens countup other ↔
      ∀ token ∈ activeTokens countup tokens.otherTokens ++ activeTokens countup tokens.firstTokens,
        Met window token.cond ↔ Met other token.cond := by
  have fields : addedBiases tokens countup window = addedBiases tokens countup other ↔
      (addedBiases tokens countup window).other = (addedBiases tokens countup other).other ∧
        (addedBiases tokens countup window).first = (addedBiases tokens countup other).first := by
    rw [← AddedBiases.mk.injEq]
  rw [fields, addedBiases_other, addedBiases_other, addedBiases_first, addedBiases_first,
    filter_eq_filter_iff, filter_eq_filter_iff]
  simp only [Bool.not_inj_iff, decide_eq_decide]
  constructor
  · rintro ⟨inOther, inFirst⟩ token member
    rcases mem_append.mp member with isOther | isFirst
    · exact inOther token isOther
    · exact inFirst token isFirst
  · intro agree
    exact ⟨fun token member => agree token (mem_append_left _ member),
      fun token member => agree token (mem_append_right _ member)⟩

end

section

variable {T : SamplerTypes} {F : Type}

theorem elbAccept_texts (env : SamplerEnv T) (s : CommonSampler T) :
    (elbAccept env s).draftedText = s.draftedText ∧
      (elbAccept env s).generatedText = s.generatedText := by
  unfold elbAccept
  split
  · split
    · exact ⟨rfl, rfl⟩
    · simp only [searchElb]
      split
      · exact ⟨rfl, rfl⟩
      · split <;> exact ⟨rfl, rfl⟩
  · exact ⟨rfl, rfl⟩

theorem chooseAndAccept_texts {env : SamplerEnv T} {choice : Choice T} {idx : Int}
    {s next : SamplingState T} {token : Token} {goesOn : Bool}
    (step : chooseAndAccept env choice idx s = some (token, goesOn, next)) :
    next.sampler.draftedText = s.sampler.draftedText ++ env.piece token ∧
      next.sampler.generatedText = s.sampler.generatedText := by
  unfold chooseAndAccept at step
  split at step
  · cases step
  · rename_i outcome _ _
    obtain ⟨last, accepted, equal⟩ := Option.map_eq_some_iff.mp step
    cases equal
    obtain ⟨grammar, -, same⟩ := commonSamplerAccept_some accepted
    have texts := elbAccept_texts env
      (acceptFields env (appendDrafted env (s.sampler.store outcome) outcome.token) outcome.token
        true grammar)
    rw [← same] at texts
    exact texts

/-- The states in which `common_sampler_sample_and_accept_n` samples a token, with the tokens that
it has accepted before. -/
inductive SampleVisit {α : Type} (env : SamplerEnv T) (choice : α → Choice T) :
    List Int → List α → SamplingState T → List Token → SamplingState T → Prop
  | here {idxs : List Int} {draft : List α} {s : SamplingState T}
      (sizes : idxs.length = draft.length + 1) : SampleVisit env choice idxs draft s [] s
  | next {idx : Int} {idxs : List Int} {drafted : α} {draft : List α}
      {s later visited : SamplingState T} {token : Token} {accepted : List Token}
      (chosen : chooseAndAccept env (choice drafted) idx s = some (token, true, later))
      (visit : SampleVisit env choice idxs draft later accepted visited) :
      SampleVisit env choice (idx :: idxs) (drafted :: draft) s (token :: accepted) visited

theorem SampleVisit.texts {α : Type} {env : SamplerEnv T} {choice : α → Choice T} {idxs : List Int}
    {draft : List α} {s visited : SamplingState T} {accepted : List Token}
    (visit : SampleVisit env choice idxs draft s accepted visited) :
    visited.sampler.draftedText = s.sampler.draftedText ++ accepted.flatMap env.piece ∧
      visited.sampler.generatedText = s.sampler.generatedText := by
  induction visit with
  | here => exact ⟨(append_nil _).symm, rfl⟩
  | next chosen _ ih =>
    obtain ⟨drafted, generated⟩ := chooseAndAccept_texts chosen
    refine ⟨?_, ih.2.trans generated⟩
    rw [ih.1, drafted, flatMap_cons, append_assoc]

/-- Nothing is drafted, there is no generated text, or the kept tail of the generated text meets
the same active conditions as the generated text with the drafted text behind it. -/
def DecidedAlike (config : List (ElbTokens F)) (s : CommonSampler T) : Prop :=
  ∀ text, s.draftedText ≠ [] → s.generatedText = some text →
    ∀ elb tokens, s.elbStates[s.elbIdx]? = some elb → config[s.elbIdx]? = some tokens →
      ∀ token ∈ activeTokens elb.countup tokens.otherTokens ++
          activeTokens elb.countup tokens.firstTokens,
        keptTail tokens.maxCondLen text ≠ [] ∧ token.cond <:+ keptTail tokens.maxCondLen text ↔
          token.cond <:+ text ++ s.draftedText

theorem conditionalBiases_withoutDraft (config : List (ElbTokens F)) (s : CommonSampler T) :
    conditionalBiases config s.withoutDraft =
      match s.elbStates[s.elbIdx]?, config[s.elbIdx]? with
      | some elb, some tokens =>
        addedBiases tokens elb.countup (s.generatedText.getD [] ++ s.draftedText)
      | _, _ => ⟨[], []⟩ := by
  rfl

theorem searchWindow_whole (maxCondLen : Int) {generatedText : Option Text} {draftedText : Text}
    (hidden : ∀ text, draftedText ≠ [] → generatedText ≠ some text) :
    searchWindow maxCondLen generatedText draftedText =
      generatedText.getD [] ++ draftedText := by
  cases draftedText with
  | nil => cases generatedText <;> simp [searchWindow]
  | cons byte rest =>
    cases generatedText with
    | none => rfl
    | some text => exact absurd rfl (hidden text (cons_ne_nil byte rest))

theorem conditionalBiases_iff (config : List (ElbTokens F)) (s : CommonSampler T) :
    conditionalBiases config s = conditionalBiases config s.withoutDraft ↔
      DecidedAlike config s := by
  rw [conditionalBiases_withoutDraft, conditionalBiases, DecidedAlike]
  cases state : s.elbStates[s.elbIdx]? with
  | none => simp
  | some elb =>
    cases entries : config[s.elbIdx]? with
    | none => simp
    | some tokens =>
      rw [addedBiases_eq_iff]
      constructor
      · rintro agree text drafted generated _ _ ⟨⟩ ⟨⟩ token member
        have met := agree token member
        rw [generated, searchWindow, if_pos drafted] at met
        refine met.trans ⟨fun whole => whole.2, fun ends => ⟨?_, ends⟩⟩
        exact fun empty => drafted (append_eq_nil_iff.mp empty).2
      · intro alike token member
        by_cases hidden : ∀ text, s.draftedText ≠ [] → s.generatedText ≠ some text
        · rw [searchWindow_whole _ hidden]
        · obtain ⟨text, rest⟩ := not_forall.mp hidden
          obtain ⟨drafted, generated⟩ := Classical.not_imp.mp rest
          rw [not_not] at generated
          rw [generated, searchWindow, if_pos drafted]
          refine (alike text drafted generated elb tokens rfl rfl token member).trans ?_
          refine ⟨fun ends => ⟨?_, ends⟩, fun whole => whole.2⟩
          exact fun empty => drafted (append_eq_nil_iff.mp empty).2

/-- In every state in which a token is sampled while a draft is accepted, the drafted text is what
has been accepted, and the conditional biases are those without speculation exactly when the
kept tail decides every active condition as the whole text does. -/
theorem sampleVisit_biases_iff {α : Type} (env : SamplerEnv T) (choice : α → Choice T)
    (config : List (ElbTokens F)) {idxs : List Int} {draft : List α}
    {s visited : SamplingState T} {accepted : List Token}
    (visit : SampleVisit env choice idxs draft s accepted visited) :
    visited.sampler.draftedText = s.sampler.draftedText ++ accepted.flatMap env.piece ∧
      visited.sampler.generatedText = s.sampler.generatedText ∧
      (conditionalBiases config visited.sampler =
          conditionalBiases config visited.sampler.withoutDraft ↔
        DecidedAlike config visited.sampler) :=
  ⟨visit.texts.1, visit.texts.2, conditionalBiases_iff config visited.sampler⟩

end

/-- Tokens whose piece is the letter `b`. -/
def letterEnv : SamplerEnv echoTypes := { echoEnv with piece := fun _ => [0x62] }

/-- A state whose generated text is `a`, with one state of expiring biases. -/
def letterState : SamplingState echoTypes :=
  { echoState with
    sampler := { echoState.sampler with
      generatedText := some [0x61]
      elbStates := [⟨[], 0, 0, [], 0, 0⟩] } }

/-- After `ab` the token 2 is biased. -/
def letterConfig : List (ElbTokens Int) :=
  [⟨[], [⟨2, 5, 9, [0x61, 0x62]⟩], 2, List.Pairwise.nil, pairwise_singleton ..⟩]

/-- The state before the second position: `b` is drafted, and the entry has counted it. -/
def letterVisited : SamplingState echoTypes :=
  { letterState with
    sampler := { letterState.sampler with
      prev := [0, 1]
      draftedText := [0x62]
      elbStates := [⟨[], 1, 0, [], 0, 0⟩] }
    logits := Function.update letterState.logits 1 (letterState.logits 1) }

theorem letterVisited_visit :
    SampleVisit letterEnv (plainChoice letterEnv) [1, 2] [1] letterState [1] letterVisited :=
  .next rfl (.here rfl)

theorem sampleVisit_biases_iff_at_letter :
    letterVisited.sampler.draftedText = [] ++ [1].flatMap letterEnv.piece ∧
      letterVisited.sampler.generatedText = some [0x61] ∧
      (conditionalBiases letterConfig letterVisited.sampler =
          conditionalBiases letterConfig letterVisited.sampler.withoutDraft ↔
        DecidedAlike letterConfig letterVisited.sampler) :=
  sampleVisit_biases_iff letterEnv (plainChoice letterEnv) letterConfig letterVisited_visit

/-- The drafted letter is left out of the window, and the bias is not added. -/
theorem draftedText_dropped :
    SampleVisit letterEnv (plainChoice letterEnv) [1, 2] [1] letterState [1] letterVisited ∧
      conditionalBiases letterConfig letterVisited.sampler = ⟨[], []⟩ ∧
      conditionalBiases letterConfig letterVisited.sampler.withoutDraft =
        ⟨[⟨2, 5, 9, [0x61, 0x62]⟩], []⟩ :=
  ⟨letterVisited_visit, by decide, by decide⟩

end LlamaCpp.Sampling
