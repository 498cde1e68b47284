import LlamaCpp.Lib.Run
import LlamaCpp.Sampling.Checkpoint
import Mathlib.Data.List.DropRight

/-!
# The window of previous tokens

Only a parsed grammar gives `prev` its `n_prev` entries, a reset takes them away, and
accepting keeps the length of a window that is not empty: without a grammar, and after a
reset, the penalties see the last token alone.
-/

set_option autoImplicit false

namespace LlamaCpp.Sampling

open LlamaCpp.Lib LlamaCpp.Common List

variable {T : SamplerTypes}

/-- `result->prev` as `common_sampler_init` leaves it. -/
def initPrev (grmr : Option T.Grammar) (nPrev : Nat) : List Token :=
  if grmr.isSome then replicate nPrev 0 else []

/-- `common_sampler_reset`; `reseed` renews the adaptive-p state and `speculative_rng`. -/
def commonSamplerReset (dryReset : T.Dry → T.Dry) (reseed : T.Params → T.Draws → T.Draws)
    (s : CommonSampler T) : CommonSampler T :=
  { s with prev := [], dry := s.dry.map dryReset, draws := reseed s.params s.draws }

/-- What `llama_sampling_prepare_impl` hands to the penalties, with
`use_penalty_prompt_tokens` off. -/
def penaltyTokens (prev : List Token) (penaltyLastN : Nat) : List Token :=
  prev.rtake (min prev.length penaltyLastN)

def penaltyLastN (nPrev : Nat) (param : Int) : Nat := if param < 0 then nPrev else param.toNat

inductive SamplerCall
  | accept (token : Token) (isGenerated : Bool)
  | reset

/-- A sampler, the tokens accepted since the last reset, and whether there was one. -/
structure SamplerHistory (T : SamplerTypes) where
  sampler : CommonSampler T
  accepted : List Token := []
  wasReset : Bool := false

def samplerCall (env : SamplerEnv T) (dryReset : T.Dry → T.Dry)
    (reseed : T.Params → T.Draws → T.Draws) (h : SamplerHistory T) :
    SamplerCall → Option (SamplerHistory T)
  | .accept token isGenerated =>
    (commonSamplerAccept env h.sampler token isGenerated).map fun sampler =>
      { h with sampler := sampler, accepted := h.accepted ++ [token] }
  | .reset => some ⟨commonSamplerReset dryReset reseed h.sampler, [], true⟩

/-- The length that `prev` has before the first token is accepted. -/
def windowSize (grmr : Option T.Grammar) (nPrev : Nat) (wasReset : Bool) : Nat :=
  if grmr.isSome ∧ wasReset = false then nPrev else 0

structure WindowKept (grmr : Option T.Grammar) (nPrev : Nat) (h : SamplerHistory T) : Prop where
  length : h.sampler.prev.length =
    if h.accepted = [] then windowSize grmr nPrev h.wasReset
    else max (windowSize grmr nPrev h.wasReset) 1
  ends : h.accepted.rtake (max (windowSize grmr nPrev h.wasReset) 1) <:+ h.sampler.prev

theorem rtake_suffix_rtake {tokens : List Token} {n m : Nat} (le : n ≤ m) :
    tokens.rtake n <:+ tokens.rtake m :=
  drop_suffix_drop_left tokens (by omega)

theorem length_rtake (tokens : List Token) (n : Nat) :
    (tokens.rtake n).length = min n tokens.length := by
  rw [rtake, length_drop]
  omega

theorem commonSamplerAccept_prev {env : SamplerEnv T} {s s' : CommonSampler T} {token : Token}
    {isGenerated : Bool} (success : commonSamplerAccept env s token isGenerated = some s') :
    s'.prev = s.prev.drop 1 ++ [token] := by
  obtain ⟨grammar, _, rfl⟩ := commonSamplerAccept_some success
  exact congrArg Accepted.prev (elbAccept_frame env _).1

theorem samplerCall_kept {env : SamplerEnv T} {dryReset : T.Dry → T.Dry}
    {reseed : T.Params → T.Draws → T.Draws} {grmr : Option T.Grammar} {nPrev : Nat}
    {h next : SamplerHistory T} {call : SamplerCall} (kept : WindowKept grmr nPrev h)
    (step : samplerCall env dryReset reseed h call = some next) : WindowKept grmr nPrev next := by
  cases call with
  | reset =>
    cases step
    exact ⟨by simp [commonSamplerReset, windowSize], by simp⟩
  | accept token isGenerated =>
    obtain ⟨sampler, accepted, rfl⟩ := Option.map_eq_some_iff.mp step
    have prev := commonSamplerAccept_prev accepted
    have length := kept.length
    obtain ⟨m, size⟩ : ∃ m, max (windowSize grmr nPrev h.wasReset) 1 = m + 1 :=
      ⟨max (windowSize grmr nPrev h.wasReset) 1 - 1, by omega⟩
    constructor
    · rw [if_neg (by simp), prev, length_append, length_drop, length_singleton, size]
      split at length <;> omega
    · have ends := kept.ends
      rw [size] at ends ⊢
      rw [rtake_concat_succ, prev]
      suffices inner : h.accepted.rtake m <:+ h.sampler.prev.drop 1 by
        obtain ⟨front, equal⟩ := inner
        exact ⟨front, by rw [← equal, append_assoc]⟩
      cases rest : h.accepted with
      | nil => simp
      | cons first rest' =>
        rw [rest, if_neg (cons_ne_nil _ _)] at length
        rw [rest] at ends
        refine suffix_of_suffix_length_le ?_ (drop_suffix 1 _) ?_
        · exact (rtake_suffix_rtake (Nat.le_succ m)).trans ends
        · rw [length_rtake, length_drop]
          omega

theorem samplerCalls_kept {env : SamplerEnv T} {dryReset : T.Dry → T.Dry}
    {reseed : T.Params → T.Draws → T.Draws} {start : CommonSampler T} {nPrev : Nat}
    {h : SamplerHistory T} (fresh : start.prev = initPrev start.grammar nPrev)
    (run : Reaches (samplerCall env dryReset reseed) (fun _ _ => True) ⟨start, [], false⟩ h) :
    WindowKept start.grammar nPrev h := by
  refine Reaches.invariant _ ⟨?_, by simp⟩ (fun _ _ _ kept _ step => samplerCall_kept kept step) run
  rw [fresh, initPrev, windowSize]
  cases start.grammar <;> simp

/-- After any calls the window ends in the last `min k n_prev` of the `k` tokens accepted since
the last reset, and the penalties see as many of them as they count, exactly when at most one
token is meant, or there is a grammar and there was no reset. -/
theorem prev_endsInAccepted_iff (env : SamplerEnv T) (dryReset : T.Dry → T.Dry)
    (reseed : T.Params → T.Draws → T.Draws) (start : CommonSampler T) (nPrev : Nat)
    (h : SamplerHistory T) (fresh : start.prev = initPrev start.grammar nPrev)
    (run : Reaches (samplerCall env dryReset reseed) (fun _ _ => True) ⟨start, [], false⟩ h) :
    (h.accepted.rtake (min h.accepted.length nPrev) <:+ h.sampler.prev ∧
      ∀ param : Int, h.accepted.rtake (min (min h.accepted.length nPrev)
        (penaltyLastN nPrev param)) <:+ penaltyTokens h.sampler.prev (penaltyLastN nPrev param)) ↔
    min h.accepted.length nPrev ≤ 1 ∨ start.grammar.isSome ∧ h.wasReset = false := by
  have kept := samplerCalls_kept fresh run
  constructor
  · rintro ⟨ends, _⟩
    by_contra! other
    have none : windowSize start.grammar nPrev h.wasReset = 0 := if_neg fun both => other.2 both.1 both.2
    have short := kept.length
    have long := ends.length_le
    rw [length_rtake] at long
    split at short <;> omega
  · intro condition
    have fits : min h.accepted.length nPrev ≤ max (windowSize start.grammar nPrev h.wasReset) 1 := by
      rcases condition with single | whole
      · omega
      · rw [windowSize, if_pos whole]
        omega
    have ends := (rtake_suffix_rtake fits).trans kept.ends
    refine ⟨ends, fun param => suffix_of_suffix_length_le
      ((rtake_suffix_rtake (min_le_left _ _)).trans ends) (drop_suffix _ _) ?_⟩
    have long := ends.length_le
    rw [length_rtake] at long
    rw [penaltyTokens, length_rtake, length_rtake]
    omega

/-- The window of one accepted token ends in it. -/
theorem prev_endsInAccepted_iff_at_oneToken :
    ∃ h : SamplerHistory countingTypes, h.accepted = [5] ∧
      h.accepted.rtake (min h.accepted.length 64) <:+ h.sampler.prev :=
  ⟨⟨{ biasedSampler 0 [] with prev := [5] }, [5], false⟩, rfl,
    ((prev_endsInAccepted_iff countingEnv id (fun _ draws => draws) (biasedSampler 0 []) 64 _ rfl
      (.tail .refl trivial (show samplerCall _ _ _ _ (.accept 5 true) = _ from rfl))).mpr
        (.inl (by decide))).1⟩

/-- Without a grammar the window has no room for the first of two tokens. -/
theorem prev_loses_first :
    ∃ h : SamplerHistory countingTypes,
      Reaches (samplerCall countingEnv id fun _ draws => draws) (fun _ _ => True)
        ⟨biasedSampler 0 [], [], false⟩ h ∧ h.accepted = [5, 6] ∧
      penaltyTokens h.sampler.prev 64 = [6] ∧
      ¬ h.accepted.rtake (min h.accepted.length 64) <:+ h.sampler.prev :=
  ⟨⟨{ biasedSampler 0 [] with prev := [6] }, [5, 6], false⟩,
    .tail (.tail .refl trivial (show samplerCall _ _ _ _ (.accept 5 true) = _ from rfl)) trivial
      (show samplerCall _ _ _ _ (.accept 6 true) = _ from rfl),
    rfl, rfl, by decide⟩

end LlamaCpp.Sampling
