import LlamaCpp.Sampling.Sampler
import Mathlib.Data.List.Infix

/-!
# Speculation against plain decoding

Verifying a draft emits the tokens that plain decoding emits from the same sampler, as long
as the rows hold what the model answers for the drafted prefixes.  The end state differs in
`drafted_text` alone, which nothing reads without expiring logit biases.
-/

set_option autoImplicit false

namespace LlamaCpp.Sampling

open LlamaCpp.Lib LlamaCpp.Common List

variable {T : SamplerTypes}

/-- Samples one token from the model's answer, accepts it and appends it, `n` times. -/
def plainDecode (env : SamplerEnv T) (model : List Token → T.Row) :
    Nat → List Token → CommonSampler T → T.Context →
      Option (List Token × CommonSampler T × T.Context)
  | 0, _, s, context => some ([], s, context)
  | n + 1, tokens, s, context =>
    match env.sample s.visible context (model tokens) with
    | none => none
    | some outcome =>
      match commonSamplerAccept env (s.store outcome) outcome.token true with
      | none => none
      | some s =>
        (plainDecode env model n (tokens ++ [outcome.token]) s outcome.context).map
          fun rest => (outcome.token :: rest.1, rest.2)

def CommonSampler.withText (s : CommonSampler T) (text : Text) : CommonSampler T :=
  { s with draftedText := text }

variable {s : CommonSampler T} {env : SamplerEnv T} {model : List Token → T.Row}
  {tokens : List Token} {context : T.Context} {o : SampleOutcome T} {draft : List Token}

theorem CommonSampler.elbActive_of_none (noElb : s.elbStates = []) : s.elbActive = false := by
  simp [elbActive, noElb]

theorem CommonSampler.visible_withText (noElb : s.elbStates = []) (text : Text) :
    (s.withText text).visible = s.visible := by
  have inactive := elbActive_of_none noElb
  have inactive' : (s.withText text).elbActive = false := elbActive_of_none noElb
  rw [visible, visible, inactive, inactive']
  rfl

theorem commonSamplerAccept_of_none (env : SamplerEnv T) (noElb : s.elbStates = [])
    (token : Token) (isGenerated : Bool) : commonSamplerAccept env s token isGenerated =
      (grammarAfter env s token isGenerated).map (acceptFields env s token isGenerated) := by
  unfold commonSamplerAccept
  congr 1
  funext grammar
  have inactive : (acceptFields env s token isGenerated grammar).elbActive = false :=
    CommonSampler.elbActive_of_none noElb
  rw [acceptBiases, inactive]
  rfl

theorem commonSamplerAccept_withText (env : SamplerEnv T) (noElb : s.elbStates = []) (text : Text)
    (token : Token) (isGenerated : Bool) :
    commonSamplerAccept env (s.withText text) token isGenerated =
      (commonSamplerAccept env s token isGenerated).map fun s => s.withText text := by
  have noElb' : (s.withText text).elbStates = [] := noElb
  rw [commonSamplerAccept_of_none env noElb, commonSamplerAccept_of_none env noElb',
    Option.map_map]
  rfl

theorem commonSamplerAccept_elbStates {s' : CommonSampler T} (noElb : s.elbStates = [])
    {token : Token} {isGenerated : Bool}
    (success : commonSamplerAccept env s token isGenerated = some s') : s'.elbStates = [] := by
  rw [commonSamplerAccept_of_none env noElb] at success
  obtain ⟨grammar, _, equal⟩ := Option.map_eq_some_iff.mp success
  rw [← equal]
  exact noElb

theorem chooseAndAccept_sampled (env : SamplerEnv T) (goesOn : SampleOutcome T → Bool)
    (noElb : s.elbStates = []) (text : Text) (context : T.Context) (logits : Int → T.Row)
    (idx : Int) : chooseAndAccept env
        (fun s context row => (env.sample s context row).map fun o => (o, goesOn o)) idx
        ⟨s.withText text, context, logits⟩ =
      (env.sample s.visible context (logits idx)).bind fun o =>
        (commonSamplerAccept env (s.store o) o.token true).map fun last =>
          (o.token, goesOn o,
            ⟨last.withText (text ++ env.piece o.token), o.context,
              Function.update logits idx o.row⟩) := by
  rw [chooseAndAccept, CommonSampler.visible_withText noElb]
  cases env.sample s.visible context (logits idx) with
  | none => rfl
  | some o =>
    have noElb' : (s.store o).elbStates = [] := noElb
    have appended : appendDrafted env ((s.withText text).store o) o.token =
        (s.store o).withText (text ++ env.piece o.token) := rfl
    simp only [Option.map_some]
    rw [appended, commonSamplerAccept_withText env noElb', Option.map_map]
    rfl

theorem plainDecode_succ (env : SamplerEnv T) (model : List Token → T.Row) (n : Nat)
    (tokens : List Token) (s : CommonSampler T) (context : T.Context) :
    plainDecode env model (n + 1) tokens s context =
      (env.sample s.visible context (model tokens)).bind fun o =>
        (commonSamplerAccept env (s.store o) o.token true).bind fun last =>
          (plainDecode env model n (tokens ++ [o.token]) last o.context).map
            fun rest => (o.token :: rest.1, rest.2) := by
  rw [plainDecode]
  cases env.sample s.visible context (model tokens) with
  | none => rfl
  | some o =>
    simp only [Option.bind_some]
    cases commonSamplerAccept env (s.store o) o.token true <;> rfl

def RowsAgree (model : List Token → T.Row) (tokens draft : List Token) (idxs : List Int)
    (logits : Int → T.Row) : Prop :=
  ∀ i idx, idxs[i]? = some idx → logits idx = model (tokens ++ draft.take i)

def Lossless (env : SamplerEnv T) (model : List Token → T.Row) (tokens draft : List Token)
    (s : CommonSampler T) (context : T.Context) (text : Text) :
    Option (List Token × SamplingState T) → Prop
  | some (ids, last) =>
    ids.dropLast <+: draft ∧ ∃ plain,
      plainDecode env model ids.length tokens s context = some (ids, plain, last.context) ∧
      last.sampler = { plain with draftedText := text ++ ids.flatMap env.piece }
  | none => ∃ n ≤ draft.length + 1, plainDecode env model n tokens s context = none

theorem plainDecode_one_none
    (fails : (env.sample s.visible context (model tokens)).bind (fun o => (commonSamplerAccept env (s.store o) o.token true).map fun last => (o, last)) = none) :
    plainDecode env model 1 tokens s context = none := by
  rw [plainDecode_succ]
  cases sampled : env.sample s.visible context (model tokens) with
  | none => rfl
  | some o =>
    rw [sampled, Option.bind_some, Option.map_eq_none_iff] at fails
    rw [Option.bind_some, fails]
    rfl

section

variable (sampled : env.sample s.visible context (model tokens) = some o)
include sampled

theorem plainDecode_one {last : CommonSampler T}
    (accepted : commonSamplerAccept env (s.store o) o.token true = some last) :
    plainDecode env model 1 tokens s context = some ([o.token], last, o.context) := by
  rw [plainDecode_succ, sampled, Option.bind_some, accepted]
  rfl

theorem Lossless.stops {last : CommonSampler T}
    (accepted : commonSamplerAccept env (s.store o) o.token true = some last) (text : Text)
    (logits : Int → T.Row) : Lossless env model tokens draft s context text
      (some ([o.token], ⟨last.withText (text ++ env.piece o.token), o.context, logits⟩)) := by
  refine ⟨ nil_prefix, last, plainDecode_one sampled accepted, ?_⟩
  rw [flatMap_singleton]
  rfl

theorem Lossless.step {next : CommonSampler T}
    (accepted : commonSamplerAccept env (s.store o) o.token true = some next) {text : Text}
    {result : Option (List Token × SamplingState T)} (nonempty : ∀ r, result = some r → r.1 ≠ [])
    (rest : Lossless env model (tokens ++ [o.token]) draft next o.context (text ++ env.piece o.token) result) :
    Lossless env model tokens (o.token :: draft) s context text
      (result.map fun r => (o.token :: r.1, r.2)) := by
  cases result with
  | none =>
    obtain ⟨n, le, fails⟩ := rest
    refine ⟨n + 1, by simpa using le, ?_⟩
    rw [plainDecode_succ, sampled, Option.bind_some, accepted, Option.bind_some, fails]
    rfl
  | some r =>
    obtain ⟨drafted, plain, run, equal⟩ := rest
    refine ⟨?_, plain, ?_, ?_⟩
    · rw [dropLast_cons_of_ne_nil (nonempty r rfl)]
      exact cons_prefix_cons.mpr ⟨rfl, drafted⟩
    · rw [length_cons, plainDecode_succ, sampled, Option.bind_some, accepted,
        Option.bind_some, run]
      rfl
    · rw [flatMap_cons, ← append_assoc]
      exact equal

end

theorem sampleAndAcceptLoop_cons {α : Type} (env : SamplerEnv T) (choice : α → Choice T)
    (idx : Int) (idxs : List Int) (d : α) (draft : List α) (s : SamplingState T) :
    sampleAndAcceptLoop env choice (idx :: idxs) (d :: draft) s =
      (chooseAndAccept env (choice d) idx s).bind fun step =>
        if step.2.1 then
          (sampleAndAcceptLoop env choice idxs draft step.2.2).map fun rest =>
            (step.1 :: rest.1, rest.2)
        else some ([step.1], step.2.2) := by
  simp only [sampleAndAcceptLoop]
  cases chooseAndAccept env (choice d) idx s <;> rfl

theorem RowsAgree.tail {d : Token} {idx : Int} {idxs : List Int} {logits : Int → T.Row}
    (rows : RowsAgree model tokens (d :: draft) (idx :: idxs) logits)
    (distinct : (idx :: idxs).Nodup) (row : T.Row) :
    RowsAgree model (tokens ++ [d]) draft idxs (Function.update logits idx row) := by
  intro i other found
  have apart : other ≠ idx := by
    intro same
    rw [nodup_cons] at distinct
    exact distinct.1 (same ▸ mem_of_getElem? found)
  rw [Function.update_of_ne apart, rows (i + 1) other (by simpa using found),
    append_assoc]
  rfl

theorem sampleAndAcceptLoop_lossless (env : SamplerEnv T) (model : List Token → T.Row)
    (draft : List Token) (idxs : List Int) (tokens : List Token) (s : CommonSampler T)
    (noElb : s.elbStates = []) (context : T.Context) (text : Text) (logits : Int → T.Row)
    (sizes : idxs.length = draft.length + 1) (distinct : idxs.Nodup)
    (rows : RowsAgree model tokens draft idxs logits) :
    Lossless env model tokens draft s context text
      (sampleAndAcceptLoop env (plainChoice env) idxs draft
        ⟨s.withText text, context, logits⟩) := by
  induction draft generalizing idxs tokens s context text logits with
  | nil =>
    obtain ⟨idx, equal⟩ := length_eq_one_iff.mp sizes
    subst equal
    have row : logits idx = model tokens := by simpa using rows 0 idx rfl
    have choice := chooseAndAccept_sampled env (fun _ => false) noElb text context logits idx
    rw [row] at choice
    unfold sampleAndAcceptLoop bonusChoice
    rw [choice]
    cases sampled : env.sample s.visible context (model tokens) with
    | none => exact ⟨1, le_rfl, plainDecode_one_none (by rw [sampled]; rfl)⟩
    | some o =>
      cases accepted : commonSamplerAccept env (s.store o) o.token true with
      | none =>
        rw [Option.bind_some, accepted]
        exact ⟨1, le_rfl, plainDecode_one_none (by rw [sampled, Option.bind_some, accepted]; rfl)⟩
      | some last =>
        rw [Option.bind_some, accepted]
        exact Lossless.stops sampled accepted text _
  | cons d draft ih =>
    cases idxs with
    | nil => simp at sizes
    | cons idx idxs =>
      have row : logits idx = model tokens := by simpa using rows 0 idx rfl
      have choice := chooseAndAccept_sampled env (fun o => decide (d = o.token)) noElb text
        context logits idx
      rw [row] at choice
      have first : (1 : Nat) ≤ (d :: draft).length + 1 := by simp
      rw [sampleAndAcceptLoop_cons]
      change Lossless env model tokens (d :: draft) s context text
        ((chooseAndAccept env (fun s context row =>
          (env.sample s context row).map fun o => (o, decide (d = o.token))) idx
            ⟨s.withText text, context, logits⟩).bind _)
      rw [choice]
      cases sampled : env.sample s.visible context (model tokens) with
      | none => exact ⟨1, first, plainDecode_one_none (by rw [sampled]; rfl)⟩
      | some o =>
        cases accepted : commonSamplerAccept env (s.store o) o.token true with
        | none =>
          rw [Option.bind_some, accepted]
          exact ⟨1, first,
            plainDecode_one_none (by rw [sampled, Option.bind_some, accepted]; rfl)⟩
        | some next =>
          have noElb' := commonSamplerAccept_elbStates (s := s.store o) noElb accepted
          rw [Option.bind_some, accepted, Option.map_some]
          by_cases same : d = o.token
          · subst d
            simp only
            apply Lossless.step sampled accepted
            · intro r run
              exact sampleAndAcceptLoop_nonempty run
            · apply ih idxs (tokens ++ [o.token]) next noElb'
              · simpa using sizes
              · exact (nodup_cons.mp distinct).2
              · exact rows.tail distinct o.row
          · simp only [same]
            exact Lossless.stops sampled accepted text _

/-- Verifying a draft is plain decoding: the same tokens, the same end state up to the
drafted text, and a failure only where plain decoding fails. -/
theorem sampleAndAcceptN_lossless (env : SamplerEnv T) (model : List Token → T.Row)
    (tokens draft : List Token) (idxs : List Int) (s : SamplingState T)
    (noElb : s.sampler.elbStates = []) (sizes : idxs.length = draft.length + 1)
    (distinct : idxs.Nodup) (rows : RowsAgree model tokens draft idxs s.logits) :
    match sampleAndAcceptN env (plainChoice env) idxs draft s with
    | some (ids, last) =>
      ids.dropLast <+: draft ∧ ids.dropLast.length ≤ draft.length ∧ ∃ plain,
        plainDecode env model ids.length tokens s.sampler s.context =
          some (ids, plain, last.context) ∧
        last.sampler =
          { plain with draftedText := s.sampler.draftedText ++ ids.flatMap env.piece }
    | none => ∃ n ≤ draft.length + 1,
        plainDecode env model n tokens s.sampler s.context = none := by
  have lossless := sampleAndAcceptLoop_lossless env model draft idxs tokens s.sampler noElb
    s.context s.sampler.draftedText s.logits sizes distinct rows
  have start : (⟨s.sampler.withText s.sampler.draftedText, s.context, s.logits⟩ :
      SamplingState T) = s := rfl
  rw [start] at lossless
  rw [sampleAndAcceptN, if_pos sizes]
  cases run : sampleAndAcceptLoop env (plainChoice env) idxs draft s with
  | none =>
    rw [run] at lossless
    exact lossless
  | some r =>
    rw [run] at lossless
    obtain ⟨drafted, plain, decoded, equal⟩ := lossless
    exact ⟨drafted, drafted.length_le, plain, decoded, equal⟩

def echoTypes : SamplerTypes where
  Params := Unit
  Grammar := Unit
  Dry := Unit
  Draws := Unit
  Scratch := Unit
  Context := Unit
  Row := Token

def echoEnv : SamplerEnv echoTypes where
  piece _ := []
  acceptGrammar grammar _ := some grammar
  acceptDry dry _ := dry
  leaveElb params _ _ _ := params
  sample _ _ row := some ⟨row, (), (), (), (), row⟩

def echoState : SamplingState echoTypes where
  sampler := {
    params := ()
    grammarLazy := false
    grammar := none
    prev := [0, 0]
    dry := none
    budget := none
    draws := ()
    scratch := ()
    draftedText := []
    generatedText := none
    elbStates := []
    elbIdx := 0
    elbSearchPos := 0 }
  context := ()
  logits := fun idx => idx

def echoModel (tokens : List Token) : Token := tokens.length

/-- The first drafted token is kept and the second one replaced. -/
theorem sampleAndAcceptN_lossless_at_echo :
    ∃ last plain,
      sampleAndAcceptN echoEnv (plainChoice echoEnv) [0, 1, 2] [0, 7] echoState =
        some ([0, 1], last) ∧
      plainDecode echoEnv echoModel 2 [] echoState.sampler () =
        some ([0, 1], plain, last.context) := by
  have rows : RowsAgree echoModel [] [0, 7] [0, 1, 2] echoState.logits := by
    intro i idx found
    match i, found with
    | 0, rfl => rfl
    | 1, rfl => rfl
    | 2, rfl => rfl
  obtain ⟨_, _, plain, decoded, _⟩ := sampleAndAcceptN_lossless echoEnv echoModel [] [0, 7]
    [0, 1, 2] echoState rfl rfl (by simp) rows
  exact ⟨_, plain, rfl, decoded⟩

theorem chooseAndAccept_plain {env : SamplerEnv T} {drafted token : Token} {idx : Int}
    {s next : SamplingState T} {goesOn : Bool}
    (chosen : chooseAndAccept env (plainChoice env drafted) idx s = some (token, goesOn, next)) :
    goesOn = decide (drafted = token) := by
  unfold chooseAndAccept plainChoice at chosen
  cases sampled : env.sample s.sampler.visible s.context (s.logits idx) with
  | none =>
    rw [sampled] at chosen
    cases chosen
  | some outcome =>
    rw [sampled] at chosen
    obtain ⟨_, _, equal⟩ := Option.map_eq_some_iff.mp chosen
    cases equal
    rfl

end LlamaCpp.Sampling
