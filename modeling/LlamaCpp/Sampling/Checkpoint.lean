import LlamaCpp.Sampling.Sampler
import Mathlib.Algebra.Order.BigOperators.Group.List
import Mathlib.Algebra.GroupWithZero.Nat

/-!
# The sampler in a speculative checkpoint

A verification round saves a clone of the sampler, samples and accepts, and after a
rejection clones the saved sampler back and accepts the emitted tokens once more.  The clone
copies what only sampling changes, which the replay does not change again, and leaves the
expiring logit biases, which the replay counts again.
-/

set_option autoImplicit false

namespace LlamaCpp.Sampling

open LlamaCpp.Lib LlamaCpp.Common List Option

variable {T : SamplerTypes}

def samplerClone (src dst : CommonSampler T) : CommonSampler T :=
  { dst with
    params := src.params
    grammarLazy := src.grammarLazy
    grammar := src.grammar
    prev := src.prev
    dry := src.dry
    budget := src.budget
    draws := src.draws }

/-- What saving a checkpoint meets: whether `llama_spec_ckpt_init` and `llama_spec_ckpt_save`
succeed, and the sampler that `common_sampler_init` makes. -/
structure SaveEnv (T : SamplerTypes) where
  modeAvailable : Bool := true
  saved : Bool := true
  fresh : Option (CommonSampler T)

/-- `common_speculative_checkpoint_save`: the sampler of a valid checkpoint. -/
def checkpointSave (save : SaveEnv T) (src : CommonSampler T) : Option (CommonSampler T) :=
  if save.modeAvailable && save.saved then save.fresh.map fun fresh => samplerClone src fresh
  else none

/-- The results of `llama_spec_ckpt_restore_ex`; `redecode` says whether the decode of the
emitted tokens after it succeeds. -/
inductive RestoreResult
  | failed
  | direct
  | redecode (succeeds : Bool)

/-- `for (llama_token id : ids) common_sampler_accept(sampler_dst, ctx, id, true)`. -/
def acceptIds (env : SamplerEnv T) : List Token → CommonSampler T → Option (CommonSampler T)
  | [], s => some s
  | id :: ids, s =>
    match commonSamplerAccept env s id true with
    | none => none
    | some s => acceptIds env ids s

/-- `common_speculative_checkpoint_restore` on a valid checkpoint. -/
def checkpointRestore (env : SamplerEnv T) (saved : CommonSampler T) (restore : RestoreResult)
    (ids : List Token) (dst : CommonSampler T) : Option (Bool × CommonSampler T) :=
  match restore with
  | .failed => some (false, dst)
  | .direct => (acceptIds env ids (samplerClone saved dst)).map (true, ·)
  | .redecode succeeds =>
    if ids = [] then some (true, samplerClone saved dst)
    else if succeeds then (acceptIds env ids (samplerClone saved dst)).map (true, ·)
    else some (false, samplerClone saved dst)

def anyRejected (ids : List Token) (nDraft : Nat) : Bool := decide (ids.length - 1 < nDraft)

/-- `common_speculative_commit`, as far as the sampler is concerned. -/
def speculativeCommit (env : SamplerEnv T) (checkpoint : Option (CommonSampler T))
    (restore : RestoreResult) (ids : List Token) (nDraft : Nat) (dst : CommonSampler T) :
    Option (Bool × CommonSampler T) :=
  match checkpoint with
  | some saved =>
    if anyRejected ids nDraft then checkpointRestore env saved restore ids dst
    else some (true, dst)
  | none => some (true, dst)

structure Accepted (T : SamplerTypes) where
  grammarLazy : Bool
  grammar : Option T.Grammar
  prev : List Token
  dry : Option T.Dry
  budget : Option BudgetCtx

def CommonSampler.accepted (s : CommonSampler T) : Accepted T where
  grammarLazy := s.grammarLazy
  grammar := s.grammar
  prev := s.prev
  dry := s.dry
  budget := s.budget

/-- `s` with its accepted part replaced. -/
def CommonSampler.withAccepted (s : CommonSampler T) (a : Accepted T) : CommonSampler T :=
  { s with
    grammarLazy := a.grammarLazy
    grammar := a.grammar
    prev := a.prev
    dry := a.dry
    budget := a.budget }

def CommonSampler.counting (s : CommonSampler T) : Bool := s.elbActive && s.generatedText.isSome

def CommonSampler.counted (s : CommonSampler T) : Nat := (s.elbStates.map ElbState.countup).sum

theorem elbAccept_frame (env : SamplerEnv T) (s : CommonSampler T) :
    (elbAccept env s).accepted = s.accepted ∧ (elbAccept env s).draws = s.draws := by
  unfold elbAccept
  split
  · split
    · exact ⟨rfl, rfl⟩
    · simp only [searchElb]
      split
      · exact ⟨rfl, rfl⟩
      · split <;> exact ⟨rfl, rfl⟩
  · exact ⟨rfl, rfl⟩

theorem countup_modify {states : List ElbState} {idx : Nat} (inside : idx < states.length) :
    ((states.modify idx countUp).map ElbState.countup).sum =
      (states.map ElbState.countup).sum + 1 := by
  induction states generalizing idx with
  | nil => simp at inside
  | cons elb states ih =>
    cases idx with
    | zero =>
      simp [countUp]
      omega
    | succ idx =>
      simp only [modify_succ_cons, map_cons, sum_cons]
      rw [ih (by simpa using inside)]
      omega

theorem elbAccept_counted (env : SamplerEnv T) (s : CommonSampler T) :
    (elbAccept env s).counted = if s.counting then s.counted + 1 else s.counted := by
  unfold elbAccept
  split
  · rename_i text elb generated current
    have inside : s.elbIdx < s.elbStates.length := (List.getElem?_eq_some_iff.mp current).1
    have counting : s.counting = true := by
      simp [CommonSampler.counting, CommonSampler.elbActive, inside, generated]
    rw [CommonSampler.counted, CommonSampler.counted, ← countup_modify inside]
    split
    · rfl
    · simp only [searchElb]
      split
      · rfl
      · split <;> rfl
  · rename_i other
    rw [if_neg]
    intro counting
    simp only [CommonSampler.counting, CommonSampler.elbActive, Bool.and_eq_true,
      decide_eq_true_eq, isSome_iff_exists] at counting
    obtain ⟨inside, text, generated⟩ := counting
    exact other text s.elbStates[s.elbIdx] generated (List.getElem?_eq_getElem inside)

variable {s : CommonSampler T} {env : SamplerEnv T} {s' : CommonSampler T} {token : Token}
  {isGenerated : Bool} {t : CommonSampler T} {ids : List Token}

theorem elbAccept_idle (env : SamplerEnv T) (idle : s.counting = false) : elbAccept env s = s := by
  unfold elbAccept
  split
  · rename_i text elb generated current
    have inside : s.elbIdx < s.elbStates.length := (List.getElem?_eq_some_iff.mp current).1
    simp [CommonSampler.counting, CommonSampler.elbActive, inside, generated] at idle
  · rfl

theorem commonSamplerAccept_some (success : commonSamplerAccept env s token isGenerated = some s') :
    ∃ grammar, grammarAfter env s token isGenerated = some grammar ∧
      s' = elbAccept env (acceptFields env s token isGenerated grammar) := by
  obtain ⟨grammar, allowed, equal⟩ := map_eq_some_iff.mp success
  refine ⟨grammar, allowed, ?_⟩
  rw [← equal, acceptBiases]
  split
  · rfl
  · rename_i inactive
    rw [elbAccept_idle]
    rw [CommonSampler.counting, (Bool.not_eq_true _).mp inactive, Bool.false_and]

theorem grammarAfter_congr (env : SamplerEnv T) (same : s.accepted = t.accepted) (token : Token)
    (isGenerated : Bool) :
    grammarAfter env s token isGenerated = grammarAfter env t token isGenerated := by
  cases t
  obtain ⟨rfl, rfl, -, -, rfl⟩ := same
  rfl

theorem acceptFields_congr (env : SamplerEnv T) (same : s.accepted = t.accepted) (token : Token)
    (isGenerated : Bool) (grammar : Option T.Grammar) :
    (acceptFields env s token isGenerated grammar).accepted =
      (acceptFields env t token isGenerated grammar).accepted := by
  simp only [CommonSampler.accepted, Accepted.mk.injEq] at same
  obtain ⟨lazy, _, prev, dry, budget⟩ := same
  simp [CommonSampler.accepted, acceptFields, lazy, prev, dry, budget]

theorem commonSamplerAccept_congr (same : t.accepted = s.accepted)
    (success : commonSamplerAccept env s token true = some s') :
    ∃ t', commonSamplerAccept env t token true = some t' ∧ t'.accepted = s'.accepted := by
  obtain ⟨grammar, allowed, equal⟩ := commonSamplerAccept_some success
  have allowed' : grammarAfter env t token true = some grammar :=
    (grammarAfter_congr env same token true).trans allowed
  cases result : commonSamplerAccept env t token true with
  | none =>
    rw [commonSamplerAccept, allowed'] at result
    cases result
  | some t' =>
    obtain ⟨grammar', granted, equal'⟩ := commonSamplerAccept_some result
    rw [allowed', some.injEq] at granted
    subst granted
    refine ⟨t', rfl, ?_⟩
    rw [equal, equal', (elbAccept_frame env _).1, (elbAccept_frame env _).1]
    exact acceptFields_congr env same token true grammar

theorem commonSamplerAccept_draws
    (success : commonSamplerAccept env s token isGenerated = some s') : s'.draws = s.draws := by
  obtain ⟨grammar, _, equal⟩ := commonSamplerAccept_some success
  rw [equal, (elbAccept_frame env _).2]
  rfl

theorem commonSamplerAccept_counted
    (success : commonSamplerAccept env s token isGenerated = some s') :
    s'.counted = if s.counting then s.counted + 1 else s.counted := by
  obtain ⟨grammar, _, equal⟩ := commonSamplerAccept_some success
  rw [equal, elbAccept_counted]
  rfl

theorem commonSamplerAccept_idle (idle : s.counting = false)
    (success : commonSamplerAccept env s token isGenerated = some s') :
    s' = s.withAccepted s'.accepted := by
  obtain ⟨grammar, _, equal⟩ := commonSamplerAccept_some success
  have still : (acceptFields env s token isGenerated grammar).counting = false := idle
  rw [elbAccept_idle env still] at equal
  rw [equal]
  rfl

theorem acceptIds_draws (replay : acceptIds env ids s = some s') : s'.draws = s.draws := by
  induction ids generalizing s with
  | nil =>
    cases replay
    rfl
  | cons id ids ih =>
    simp only [acceptIds] at replay
    split at replay
    · cases replay
    · rename_i next step
      exact (ih replay).trans (commonSamplerAccept_draws step)

theorem acceptIds_counted (replay : acceptIds env ids s = some s') : s.counted ≤ s'.counted := by
  induction ids generalizing s with
  | nil =>
    cases replay
    exact le_rfl
  | cons id ids ih =>
    simp only [acceptIds] at replay
    split at replay
    · cases replay
    · rename_i next step
      have rest := ih replay
      have first := commonSamplerAccept_counted step
      split at first <;> omega

theorem acceptIds_counting (nonempty : ids ≠ []) (counting : s.counting = true)
    (replay : acceptIds env ids s = some s') : s.counted < s'.counted := by
  cases ids with
  | nil => exact absurd rfl nonempty
  | cons id ids =>
    simp only [acceptIds] at replay
    split at replay
    · cases replay
    · rename_i next step
      have rest := acceptIds_counted replay
      have first := commonSamplerAccept_counted step
      rw [if_pos counting] at first
      omega

theorem acceptIds_idle (idle : s.counting = false) (replay : acceptIds env ids s = some s') :
    s' = s.withAccepted s'.accepted := by
  induction ids generalizing s with
  | nil =>
    cases replay
    rfl
  | cons id ids ih =>
    simp only [acceptIds] at replay
    split at replay
    · cases replay
    · rename_i next step
      have moved := commonSamplerAccept_idle idle step
      have idle' : next.counting = false := by
        rw [moved]
        exact idle
      have rest := ih idle' replay
      rw [rest, moved]
      rfl

theorem chooseAndAccept_some {choice : Choice T} {idx : Int} {s next : SamplingState T}
    {goesOn : Bool} (step : chooseAndAccept env choice idx s = some (token, goesOn, next)) :
    ∃ start : CommonSampler T, start.accepted = s.sampler.accepted ∧
      commonSamplerAccept env start token true = some next.sampler := by
  unfold chooseAndAccept at step
  split at step
  · cases step
  · rename_i outcome _ _
    obtain ⟨last, accepted, equal⟩ := map_eq_some_iff.mp step
    cases equal
    exact ⟨appendDrafted env (s.sampler.store outcome) outcome.token, rfl, accepted⟩

/-- The emitted tokens can be accepted again from any sampler with the accepted part of the
start, and bring it to that of the end. -/
theorem sampleAndAcceptLoop_replays {α : Type} {choice : α → Choice T} {idxs : List Int}
    {draft : List α} {s last : SamplingState T}
    (run : sampleAndAcceptLoop env choice idxs draft s = some (ids, last)) :
    ids ≠ [] ∧ ∀ t : CommonSampler T, t.accepted = s.sampler.accepted →
      ∃ t', acceptIds env ids t = some t' ∧ t'.accepted = last.sampler.accepted := by
  fun_induction sampleAndAcceptLoop env choice idxs draft s generalizing ids with
  | case1 idx s =>
    obtain ⟨⟨token, goesOn, next⟩, step, equal⟩ := map_eq_some_iff.mp run
    cases equal
    refine ⟨cons_ne_nil _ _, fun t same => ?_⟩
    obtain ⟨start, startSame, accepted⟩ := chooseAndAccept_some step
    obtain ⟨t', replay, same'⟩ := commonSamplerAccept_congr (same.trans startSame.symm) accepted
    exact ⟨t', by simp only [acceptIds, replay], same'⟩
  | case2 => cases run
  | case3 idx idxs d draft s token next step ih =>
    obtain ⟨⟨rest, final⟩, inner, equal⟩ := map_eq_some_iff.mp run
    cases equal
    refine ⟨cons_ne_nil _ _, fun t same => ?_⟩
    obtain ⟨start, startSame, accepted⟩ := chooseAndAccept_some step
    obtain ⟨t', replay, same'⟩ := commonSamplerAccept_congr (same.trans startSame.symm) accepted
    obtain ⟨t'', replays, same''⟩ := (ih inner).2 t' same'
    exact ⟨t'', by simp only [acceptIds, replay, replays], same''⟩
  | case4 idx idxs d draft s token next goesOn step off =>
    cases run
    refine ⟨cons_ne_nil _ _, fun t same => ?_⟩
    obtain ⟨start, startSame, accepted⟩ := chooseAndAccept_some step
    obtain ⟨t', replay, same'⟩ := commonSamplerAccept_congr (same.trans startSame.symm) accepted
    exact ⟨t', by simp only [acceptIds, replay], same'⟩
  | case5 => cases run

def ReplayExact (before after : CommonSampler T) : Prop :=
  after.params = before.params ∧ after.draws = before.draws ∧ after.counting = false

/-- Cloning the saved sampler back and accepting the tokens again gives the sampler after
the round exactly in the case of `ReplayExact`. -/
theorem acceptIds_clone_iff {before after fresh replayed : CommonSampler T} (nonempty : ids ≠ [])
    (replay : acceptIds env ids (samplerClone (samplerClone before fresh) after) = some replayed)
    (same : replayed.accepted = after.accepted) : replayed = after ↔ ReplayExact before after := by
  have draws := acceptIds_draws replay
  have biases : (samplerClone (samplerClone before fresh) after).counting = after.counting := rfl
  constructor
  · intro equal
    have idle : (samplerClone (samplerClone before fresh) after).counting = false := by
      by_contra busy
      have counted := acceptIds_counting nonempty ((Bool.not_eq_false _).mp busy) replay
      rw [equal] at counted
      exact lt_irrefl _ counted
    have kept := acceptIds_idle idle replay
    rw [equal] at kept draws
    exact ⟨(congrArg CommonSampler.params kept).trans rfl, draws, biases.symm.trans idle⟩
  · rintro ⟨params, sameDraws, idle⟩
    rw [acceptIds_idle (biases.trans idle) replay, same]
    unfold samplerClone CommonSampler.withAccepted
    simp only [← params, ← sameDraws]
    rfl

/-- A round that commits ends in the sampler that sampling and accepting left exactly when
no draft was rejected, no checkpoint is valid, or the replay is exact. -/
theorem speculativeCommit_exact_iff {α : Type} (env : SamplerEnv T) (choice : α → Choice T)
    (save : SaveEnv T) (restore : RestoreResult) (idxs : List Int) (draft : List α)
    (s last : SamplingState T) (ids : List Token)
    (verified : sampleAndAcceptN env choice idxs draft s = some (ids, last)) :
    ∃ committed sampler, speculativeCommit env (checkpointSave save s.sampler) restore ids
        draft.length last.sampler = some (committed, sampler) ∧
      (committed = true → (sampler = last.sampler ↔
        anyRejected ids draft.length = false ∨ checkpointSave save s.sampler = none ∨
          ReplayExact s.sampler last.sampler)) := by
  unfold sampleAndAcceptN at verified
  split at verified
  · obtain ⟨nonempty, replays⟩ := sampleAndAcceptLoop_replays verified
    unfold speculativeCommit
    cases checkpoint : checkpointSave save s.sampler with
    | none => exact ⟨true, last.sampler, rfl, fun _ => ⟨fun _ => Or.inr (Or.inl rfl), fun _ => rfl⟩⟩
    | some saved =>
      have clone : ∃ fresh, saved = samplerClone s.sampler fresh := by
        unfold checkpointSave at checkpoint
        split at checkpoint
        · obtain ⟨fresh, _, equal⟩ := map_eq_some_iff.mp checkpoint
          exact ⟨fresh, equal.symm⟩
        · cases checkpoint
      obtain ⟨fresh, equal⟩ := clone
      subst equal
      obtain ⟨replayed, replay, same⟩ :=
        replays (samplerClone (samplerClone s.sampler fresh) last.sampler) rfl
      have exact_ := acceptIds_clone_iff nonempty replay same
      dsimp only
      split
      · rename_i rejected
        have cases_ : (replayed = last.sampler ↔
            anyRejected ids draft.length = false ∨
              some (samplerClone s.sampler fresh) = none ∨
              ReplayExact s.sampler last.sampler) := by
          rw [exact_]
          simp [rejected]
        cases restore with
        | failed => exact ⟨false, last.sampler, rfl, fun impossible => by cases impossible⟩
        | direct =>
          refine ⟨true, replayed, ?_, fun _ => cases_⟩
          simp [checkpointRestore, replay]
        | redecode succeeds =>
          cases succeeds with
          | true =>
            refine ⟨true, replayed, ?_, fun _ => cases_⟩
            simp [checkpointRestore, if_neg nonempty, replay]
          | false =>
            refine ⟨false, samplerClone (samplerClone s.sampler fresh) last.sampler, ?_,
              fun impossible => by cases impossible⟩
            simp [checkpointRestore, if_neg nonempty]
      · rename_i kept
        exact ⟨true, last.sampler, rfl,
          fun _ => ⟨fun _ => Or.inl ((Bool.not_eq_true _).mp kept), fun _ => rfl⟩⟩
  · cases verified

def countingTypes : SamplerTypes where
  Params := Unit
  Grammar := Unit
  Dry := Unit
  Draws := Nat
  Scratch := Unit
  Context := Unit
  Row := Token

def countingEnv : SamplerEnv countingTypes where
  piece _ := []
  acceptGrammar grammar _ := some grammar
  acceptDry dry _ := dry
  leaveElb params _ _ _ := params
  sample s _ row := some ⟨row, (), Nat.succ s.draws, (), (), row⟩

def biasedSampler (draws : Nat) (elbStates : List ElbState) : CommonSampler countingTypes where
  params := ()
  grammarLazy := false
  grammar := none
  prev := []
  dry := none
  budget := none
  draws := draws
  scratch := ()
  draftedText := []
  generatedText := some []
  elbStates := elbStates
  elbIdx := 0
  elbSearchPos := 0

def waitingBias (countup : Nat) : ElbState := ⟨[10], countup, 4, [], 0, 1⟩

def biasedState : SamplingState countingTypes where
  sampler := biasedSampler 0 [waitingBias 0]
  context := ()
  logits := fun idx => idx

def plainSave : SaveEnv countingTypes where
  fresh := some (biasedSampler 0 [])

/-- A draft of token 0 is kept, so the round does not roll back. -/
theorem speculativeCommit_exact_iff_at_keptDraft :
    ∃ ids last sampler,
      sampleAndAcceptN countingEnv (plainChoice countingEnv) [0, 1] [0] biasedState =
        some (ids, last) ∧
      speculativeCommit countingEnv (checkpointSave plainSave biasedState.sampler) .direct ids 1
        last.sampler = some (true, sampler) ∧
      sampler = last.sampler := by
  obtain ⟨committed, sampler, commit, exact_⟩ := speculativeCommit_exact_iff countingEnv
    (plainChoice countingEnv) plainSave .direct [0, 1] [0] biasedState _ [0, 1] rfl
  have returns : committed = true :=
    (congrArg (fun r => (r.map Prod.fst).getD false) commit).symm
  subst returns
  exact ⟨[0, 1], _, sampler, rfl, commit, (exact_ rfl).mpr (Or.inl rfl)⟩

/-- A draft of token 7 is rejected for token 0: the draw is taken back and the bias counts the
one emitted token twice. -/
theorem speculativeCommit_rewinds_draws :
    ∃ last sampler,
      sampleAndAcceptN countingEnv (plainChoice countingEnv) [0, 1] [7] biasedState =
        some ([0], last) ∧
      last.sampler.draws = (1 : Nat) ∧ last.sampler.elbStates = [waitingBias 1] ∧
      speculativeCommit countingEnv (checkpointSave plainSave biasedState.sampler) .direct [0] 1
        last.sampler = some (true, sampler) ∧
      sampler.draws = (0 : Nat) ∧ sampler.elbStates = [waitingBias 2] :=
  ⟨_, _, rfl, rfl, rfl, rfl, rfl, rfl⟩

end LlamaCpp.Sampling
