import LlamaCpp.Common.ReasoningBudget

/-!
# The common sampler

`CommonSampler` carries the fields of `common_sampler` that sampling and accepting a token
read or write, `commonSamplerAccept` models `common_sampler_accept` and `sampleAndAcceptN`
the two overloads of `common_sampler_sample_and_accept_n`, which differ in how a token is
chosen.  The computation of one token from its logits is a parameter.
-/

set_option autoImplicit false

namespace LlamaCpp.Sampling

open LlamaCpp.Lib LlamaCpp.Common

abbrev Text := List Byte

/-- The parts of the sampler and of the context that stay abstract: the parameters (without
`grammar_lazy`), the grammar, the DRY ring buffer, what only sampling changes and the clone copies (`rng`,
`speculative_rng`, `mirostat_mu`, `n_valid` and the adaptive-p state), what is computed
anew for each token (`cur`, `cur_p`), the sampling state of the context, a row of logits. -/
structure SamplerTypes where
  Params : Type
  Grammar : Type
  Dry : Type
  Draws : Type
  Scratch : Type
  Context : Type
  Row : Type

/-- `elb_state`; the tokens and biases that only sampling reads are left out. -/
structure ElbState where
  exitword : Text
  countup : Nat
  delay : Nat
  jumpword : Text
  jumpIdx : Nat
  searchWordLen : Nat
deriving DecidableEq

structure CommonSampler (T : SamplerTypes) where
  params : T.Params
  grammarLazy : Bool
  grammar : Option T.Grammar
  prev : List Token
  dry : Option T.Dry
  budget : Option BudgetCtx
  draws : T.Draws
  scratch : T.Scratch
  draftedText : Text
  generatedText : Option Text
  elbStates : List ElbState
  elbIdx : Nat
  elbSearchPos : Nat

structure SampleOutcome (T : SamplerTypes) where
  token : Token
  params : T.Params
  draws : T.Draws
  scratch : T.Scratch
  context : T.Context
  row : T.Row

/-- The functions of other files: `none` is an exception or a failed assertion.  `leaveElb`
takes the bias of the entry that is left off the parameters and starts the next entry. -/
structure SamplerEnv (T : SamplerTypes) where
  piece : Token → Text
  acceptGrammar : T.Grammar → Token → Option T.Grammar
  acceptDry : T.Dry → Token → T.Dry
  leaveElb : T.Params → Nat → Nat → Nat → T.Params
  sample : CommonSampler T → T.Context → T.Row → Option (SampleOutcome T)

variable {T : SamplerTypes}

def stringIsFound (window str : Text) : Option Nat :=
  if str = [] then none
  else (List.range (window.length + 1)).find? fun pos => str.isPrefixOf (window.drop pos)

def grammarShouldApply (s : CommonSampler T) : Bool :=
  s.grammar.isSome &&
    match s.budget with
    | none => true
    | some budget =>
      !s.grammarLazy || decide (budget.state = .idle) || decide (budget.state = .done)

def countUp (elb : ElbState) : ElbState := { elb with countup := elb.countup + 1 }

/-- The end of `common_expiring_logit_bias_accept`, with the entry that comes next and the
position after the word found. -/
def switchElb (env : SamplerEnv T) (s : CommonSampler T) (next pos : Nat) : CommonSampler T :=
  { s with
    params := env.leaveElb s.params s.elbIdx next pos
    elbIdx := next
    elbSearchPos := pos + 1 }

/-- The search of `common_expiring_logit_bias_accept`; `elb` is the current entry. -/
def searchElb (env : SamplerEnv T) (s : CommonSampler T) (elb : ElbState) (text : Text) :
    CommonSampler T :=
  let window := text.drop (min text.length s.elbSearchPos) ++ env.piece (s.prev.getLast?.getD 0)
  match stringIsFound window elb.jumpword with
  | some pos => switchElb env s elb.jumpIdx (pos + s.elbSearchPos + elb.jumpword.length)
  | none =>
    match stringIsFound window elb.exitword with
    | some pos => switchElb env s (s.elbIdx + 1) (pos + s.elbSearchPos + elb.exitword.length)
    | none =>
      { s with elbSearchPos := s.elbSearchPos + (window.length + 1 - elb.searchWordLen) }

/-- `common_expiring_logit_bias_accept`. -/
def elbAccept (env : SamplerEnv T) (s : CommonSampler T) : CommonSampler T :=
  match s.generatedText, s.elbStates[s.elbIdx]? with
  | some text, some elb =>
    let s := { s with elbStates := s.elbStates.modify s.elbIdx countUp }
    if elb.countup + 1 < elb.delay ∨ elb.searchWordLen = 0 then s
    else searchElb env s (countUp elb) text
  | _, _ => s

/-- `if (elb_states.size() > elb_idx)`. -/
def CommonSampler.elbActive (s : CommonSampler T) : Bool := decide (s.elbIdx < s.elbStates.length)

def grammarAfter (env : SamplerEnv T) (s : CommonSampler T) (token : Token) (isGenerated : Bool) :
    Option (Option T.Grammar) :=
  match s.grammar with
  | none => some none
  | some grammar =>
    if isGenerated && grammarShouldApply s then (env.acceptGrammar grammar token).map some
    else some (some grammar)

/-- The fields that `common_sampler_accept` writes before the biases. -/
def acceptFields (env : SamplerEnv T) (s : CommonSampler T) (token : Token) (isGenerated : Bool)
    (grammar : Option T.Grammar) : CommonSampler T :=
  { s with
    prev := s.prev.drop 1 ++ [token]
    budget := if isGenerated then s.budget.map fun budget => budget.accept token else s.budget
    grammar := grammar
    dry := s.dry.map fun dry => env.acceptDry dry token }

def acceptBiases (env : SamplerEnv T) (s : CommonSampler T) : CommonSampler T :=
  if s.elbActive then elbAccept env s else s

/-- `common_sampler_accept`.  Whether the grammar applies is read before the budget moves. -/
def commonSamplerAccept (env : SamplerEnv T) (s : CommonSampler T) (token : Token)
    (isGenerated : Bool) : Option (CommonSampler T) :=
  (grammarAfter env s token isGenerated).map fun grammar =>
    acceptBiases env (acceptFields env s token isGenerated grammar)

/-- The sampler with the context it samples from; `logits` are the rows of the last decode. -/
structure SamplingState (T : SamplerTypes) where
  sampler : CommonSampler T
  context : T.Context
  logits : Int → T.Row

/-- What sampling can see: `drafted_text` is read by `common_expiring_logit_bias_apply` only. -/
def CommonSampler.visible (s : CommonSampler T) : CommonSampler T :=
  if s.elbActive then s else { s with draftedText := [] }

def CommonSampler.store (s : CommonSampler T) (outcome : SampleOutcome T) : CommonSampler T :=
  { s with params := outcome.params, draws := outcome.draws, scratch := outcome.scratch }

/-- How the token at a position is chosen, and whether the loop goes on after it. -/
abbrev Choice (T : SamplerTypes) :=
  CommonSampler T → T.Context → T.Row → Option (SampleOutcome T × Bool)

/-- `gsmpl->drafted_text += common_token_to_piece(ctx, id, true)`. -/
def appendDrafted (env : SamplerEnv T) (s : CommonSampler T) (token : Token) : CommonSampler T :=
  { s with draftedText := s.draftedText ++ env.piece token }

/-- One position: the token is chosen from the row `idx`, which sampling may write to, and
accepted. -/
def chooseAndAccept (env : SamplerEnv T) (choice : Choice T) (idx : Int) (s : SamplingState T) :
    Option (Token × Bool × SamplingState T) :=
  match choice s.sampler.visible s.context (s.logits idx) with
  | none => none
  | some (outcome, goesOn) =>
    (commonSamplerAccept env (appendDrafted env (s.sampler.store outcome) outcome.token)
        outcome.token true).map fun sampler =>
      (outcome.token, goesOn,
        { sampler := sampler
          context := outcome.context
          logits := Function.update s.logits idx outcome.row })

/-- `common_sampler_sample`, after which no draft is compared. -/
def bonusChoice (env : SamplerEnv T) : Choice T :=
  fun s context row => (env.sample s context row).map fun outcome => (outcome, false)

def plainChoice (env : SamplerEnv T) (drafted : Token) : Choice T :=
  fun s context row =>
    (env.sample s context row).map fun outcome => (outcome, decide (drafted = outcome.token))

def sampleAndAcceptLoop {α : Type} (env : SamplerEnv T) (choice : α → Choice T) :
    List Int → List α → SamplingState T → Option (List Token × SamplingState T)
  | [idx], [], s =>
    (chooseAndAccept env (bonusChoice env) idx s).map fun step => ([step.1], step.2.2)
  | idx :: idxs, drafted :: draft, s =>
    match chooseAndAccept env (choice drafted) idx s with
    | none => none
    | some (token, goesOn, s) =>
      if goesOn then
        (sampleAndAcceptLoop env choice idxs draft s).map fun rest =>
          (token :: rest.1, rest.2)
      else some ([token], s)
  | _, _, _ => none

theorem sampleAndAcceptLoop_nonempty {α : Type} {env : SamplerEnv T} {choice : α → Choice T}
    {idxs : List Int} {draft : List α} {s : SamplingState T}
    {r : List Token × SamplingState T}
    (run : sampleAndAcceptLoop env choice idxs draft s = some r) : r.1 ≠ [] := by
  fun_induction sampleAndAcceptLoop env choice idxs draft s with
  | case1 =>
    obtain ⟨step, _, equal⟩ := Option.map_eq_some_iff.mp run
    rw [← equal]
    exact List.cons_ne_nil _ _
  | case2 => cases run
  | case3 =>
    obtain ⟨rest, _, equal⟩ := Option.map_eq_some_iff.mp run
    rw [← equal]
    exact List.cons_ne_nil _ _
  | case4 =>
    cases run
    exact List.cons_ne_nil _ _
  | case5 => cases run

def sampleAndAcceptN {α : Type} (env : SamplerEnv T) (choice : α → Choice T) (idxs : List Int)
    (draft : List α) (s : SamplingState T) : Option (List Token × SamplingState T) :=
  if idxs.length = draft.length + 1 then sampleAndAcceptLoop env choice idxs draft s else none

end LlamaCpp.Sampling
