import LlamaCpp.Sampling.AcceptDists

/-!
# What an accepted draft is distributed as

The law of the token emitted at a draft position, given the drafted tokens before it, is the
`emitted` law of the candidates' `p` fields and the proposal; it is the target's
distribution exactly when the position is never reached or `Unbiased` holds there.
-/

set_option autoImplicit false

namespace LlamaCpp.Sampling

open LlamaCpp.Lib LlamaCpp.Common List

theorem qProbs_eq_mass (q : TokenDist) (id : Token) :
    q.qProbs id = (weights q.entries).mass id := by
  have general : ∀ (entries : List TokenData) (m : Token → ℚ),
      entries.foldl (fun m c => Function.update m c.id (m c.id + c.p)) m id =
        m id + (weights entries).mass id := by
    intro entries
    induction entries with
    | nil => intro m; simp [weights, Law.mass, Law.prob, Law.expect]
    | cons c entries ih =>
      intro m
      have step : weights (c :: entries) = (c.p, c.id) :: weights entries := rfl
      rw [foldl_cons, ih, step, Law.mass_cons]
      by_cases same : c.id = id
      · subst same
        rw [Function.update_self, if_pos rfl, add_assoc]
      · rw [Function.update_of_ne (Ne.symm same), if_neg same, zero_add]
  rw [TokenDist.qProbs, general, zero_add]

theorem qProbs_nonneg (q : TokenDist) (id : Token) : 0 ≤ q.qProbs id := by
  rw [qProbs_eq_mass]
  apply Law.mass_nonneg
  intro run member
  obtain ⟨c, inside, rfl⟩ := mem_map.mp member
  exact q.nonneg c inside

namespace Candidates

theorem prob_of_mem {row : Candidates} {c : TokenData} (member : c ∈ row.data) :
    row.prob c.id = c.p := by
  have found : row.data.find? (fun other => decide (other.id = c.id)) = some c := by
    rw [List.find?_eq_some_iff_append]
    obtain ⟨front, back, split_⟩ := append_of_mem member
    refine ⟨decide_eq_true rfl, front, back, split_, ?_⟩
    intro other before
    have unique := row.nodup
    rw [split_, map_append, map_cons, nodup_middle, nodup_cons] at unique
    simp only [Bool.not_eq_true', decide_eq_false_iff_not]
    intro same
    apply unique.1
    rw [← same]
    exact mem_append_left _ (mem_map_of_mem before)
  rw [prob, found]
  rfl

theorem prob_of_absent {row : Candidates} {id : Token} (absent : id ∉ row.data.map TokenData.id) :
    row.prob id = 0 := by
  have missing : row.data.find? (fun c => decide (c.id = id)) = none := by
    rw [List.find?_eq_none]
    intro c member same
    apply absent
    rw [← of_decide_eq_true same]
    exact mem_map_of_mem member
  rw [prob, missing]
  rfl

theorem prob_nonneg (row : Candidates) (id : Token) : 0 ≤ row.prob id := by
  by_cases listed : id ∈ row.data.map TokenData.id
  · obtain ⟨c, member, rfl⟩ := mem_map.mp listed
    rw [prob_of_mem member]
    exact row.nonneg c member
  · rw [prob_of_absent listed]

end Candidates

def support (row : Candidates) (q : TokenDist) : Finset Token :=
  (row.data.map TokenData.id ++ q.entries.map TokenData.id).toFinset

section Position

variable (row : Candidates) (q : TokenDist)

theorem expect_candidates (field : TokenData → ℚ) (value : Token → ℚ)
    (listed : ∀ c ∈ row.data, field c = value c.id)
    (unlisted : ∀ id ∉ row.data.map TokenData.id, value id = 0) (f : Token → ℚ) :
    Law.expect (row.data.map fun c => (field c, c.id)) f =
      ∑ id ∈ support row q, value id * f id := by
  have pointwise : Law.expect (row.data.map fun c => (field c, c.id)) f =
      ((row.data.map TokenData.id).map fun id => value id * f id).sum := by
    simp only [Law.expect, map_map]
    congr 1
    apply map_congr_left
    intro c member
    simp [listed c member]
  rw [pointwise, ← sum_toFinset _ row.nodup]
  apply Finset.sum_subset
  · intro id member
    simp only [support, mem_toFinset, mem_append] at member ⊢
    exact Or.inl member
  · intro id _ absent
    rw [unlisted id (by simpa using absent), zero_mul]

theorem expect_weights (f : Token → ℚ) :
    (weights row.data).expect f = ∑ id ∈ support row q, row.prob id * f id :=
  expect_candidates row q TokenData.p row.prob
    (fun _ member => (Candidates.prob_of_mem member).symm)
    (fun _ absent => Candidates.prob_of_absent absent) f

theorem expect_residual (f : Token → ℚ) :
    (residual row q).expect f =
      ∑ id ∈ support row q, max 0 (row.prob id - q.qProbs id) * f id := by
  apply expect_candidates
  · intro c member
    rw [Candidates.prob_of_mem member]
  · intro id absent
    rw [Candidates.prob_of_absent absent, zero_sub, max_eq_left]
    exact neg_nonpos.mpr (qProbs_nonneg q id)

theorem total_weights : (weights row.data).total = weight (support row q) row.prob := by
  rw [Law.total, expect_weights row q]
  simp [weight]

theorem total_residual :
    (residual row q).total = spillWeight (support row q) row.prob q.qProbs := by
  rw [Law.total, expect_residual]
  simp [spillWeight]

theorem total_weights_ne_zero : (weights row.data).total ≠ 0 := by
  rw [weights_total]
  exact row.positive.ne'

theorem total_residual_nonneg : 0 ≤ (residual row q).total := by
  rw [total_residual]
  exact Finset.sum_nonneg fun _ _ => le_max_left _ _

theorem expect_replacement (f : Token → ℚ) :
    (row.sample.bind (replacement row q)).expect f =
      ∑ id ∈ support row q,
        (if spillWeight (support row q) row.prob q.qProbs = 0
          then row.prob id / weight (support row q) row.prob
          else max 0 (row.prob id - q.qProbs id) /
            spillWeight (support row q) row.prob q.qProbs) * f id := by
  have total := total_residual row q
  rw [Law.expect_bind]
  by_cases none_ : spillWeight (support row q) row.prob q.qProbs = 0
  · have kept : ∀ fallback, replacement row q fallback = Law.dirac fallback := by
      intro fallback
      rw [replacement, if_neg (by rw [total, none_]; exact lt_irrefl 0)]
    simp only [kept, Law.expect_dirac, if_pos none_]
    rw [Candidates.sample, Law.expect_normalize, expect_weights row q, total_weights row q,
      Finset.sum_div]
    exact Finset.sum_congr rfl fun id _ => by ring
  · have above : 0 < (residual row q).total :=
      lt_of_le_of_ne (total_residual_nonneg row q) (by rw [total]; exact Ne.symm none_)
    have drawn : ∀ fallback, replacement row q fallback = (residual row q).normalize := by
      intro fallback
      rw [replacement, if_pos above]
    simp only [drawn, if_neg none_]
    rw [Law.expect_const, Candidates.sample, Law.total_normalize (total_weights_ne_zero row),
      one_mul, Law.expect_normalize, expect_residual, total, Finset.sum_div]
    exact Finset.sum_congr rfl fun id _ => by ring

theorem expect_draw (f : Token → ℚ) :
    (q.draw.expect fun drawn => f drawn.2) =
      ∑ id ∈ support row q, q.qProbs id * f id := by
  have forget : (q.draw.expect fun drawn => f drawn.2) = (weights q.entries).expect f := by
    have values : (q.entries.zipIdx.map Prod.fst).map (fun c => c.p * f c.id) =
        q.entries.map fun c => c.p * f c.id := by rw [zipIdx_map_fst]
    simp only [Law.expect, TokenDist.draw, weights, map_map] at values ⊢
    exact congrArg List.sum values
  have covered : ∀ run ∈ weights q.entries, run.2 ∈ support row q := by
    intro run member
    obtain ⟨c, inside, rfl⟩ := mem_map.mp member
    simp only [support, mem_toFinset, mem_append]
    exact Or.inr (mem_map_of_mem inside)
  rw [forget, Law.expect_eq_sum covered]
  simp [qProbs_eq_mass]

end Position

def keepProb (position : DraftPosition) : ℚ :=
  if 0 < position.dist.qProbs position.drafted then
    min 1 (position.row.prob position.drafted / position.dist.qProbs position.drafted)
  else 0

theorem mul_keepProb (row : Candidates) (q : TokenDist) (id : Token) :
    q.qProbs id * keepProb ⟨row, q, id⟩ = min (row.prob id) (q.qProbs id) := by
  simp only [keepProb]
  split
  · rename_i proposed
    rw [mul_min_of_nonneg _ _ proposed.le, mul_one, mul_div_cancel₀ _ proposed.ne', min_comm]
  · rename_i unproposed
    have zero : q.qProbs id = 0 := le_antisymm (not_lt.mp unproposed) (qProbs_nonneg q id)
    rw [zero, zero_mul, min_eq_right (row.prob_nonneg id)]

theorem expect_accepts (position : DraftPosition) (f : Bool → ℚ) :
    (accepts position).expect f =
      keepProb position * f true + (1 - keepProb position) * f false := by
  unfold accepts keepProb uniformTest
  split
  · exact Law.expect_flip _ f
  · rw [Law.expect_dirac]
    ring

theorem expect_verify (position : DraftPosition) (f : Bool × Token → ℚ) :
    (verify position).expect f = keepProb position * f (true, position.drafted) +
      (1 - keepProb position) *
        (position.row.sample.bind (replacement position.row position.dist)).expect
          fun id => f (false, id) := by
  have branch : ∀ fallback, ((accepts position).bind fun kept =>
      if kept then Law.dirac (true, position.drafted)
      else (replacement position.row position.dist fallback).bind fun id =>
        Law.dirac (false, id)).expect f =
      keepProb position * f (true, position.drafted) + (1 - keepProb position) *
        (replacement position.row position.dist fallback).expect fun id => f (false, id) := by
    intro fallback
    rw [Law.expect_bind, expect_accepts]
    simp [Law.expect_bind]
  rw [verify, Law.expect_bind, Law.expect_bind]
  simp only [branch]
  have drawn : position.row.sample.total = 1 :=
    Law.total_normalize (total_weights_ne_zero position.row)
  rw [Law.expect_add, Law.expect_const, drawn, one_mul]
  simp only [mul_comm (1 - keepProb position)]
  rw [Law.expect_mul_right]

theorem total_replacement (row : Candidates) (q : TokenDist) (fallback : Token) :
    (replacement row q fallback).total = 1 := by
  unfold replacement
  split
  · rename_i above
    exact Law.total_normalize above.ne'
  · exact Law.total_dirac fallback

theorem total_verify (position : DraftPosition) : (verify position).total = 1 := by
  rw [Law.total, expect_verify]
  have replaced :
      (position.row.sample.bind (replacement position.row position.dist)).total = 1 := by
    rw [Law.total_bind _ _ (total_replacement _ _)]
    exact Law.total_normalize (total_weights_ne_zero position.row)
  rw [Law.total] at replaced
  rw [replaced]
  ring

theorem total_sampleAndAcceptDists (bonus : Candidates) (positions : List DraftPosition) :
    (sampleAndAcceptDists bonus positions).total = 1 := by
  induction positions with
  | nil =>
    rw [sampleAndAcceptDists, Law.total_bind _ _ fun id => Law.total_dirac [id]]
    exact Law.total_normalize (total_weights_ne_zero bonus)
  | cons position rest ih =>
    rw [sampleAndAcceptDists, Law.total_bind]
    · exact total_verify position
    · intro emitted
      split
      · rw [Law.total_bind _ _ fun tail => Law.total_dirac (emitted.2 :: tail)]
        exact ih
      · exact Law.total_dirac [emitted.2]

def follows (event : List Token → Bool) : List Token → List Token → Bool
  | [], result => event result
  | id :: ids, other :: result => decide (other = id) && follows event ids result
  | _ :: _, [] => false

def sampled (result : List Token) : Bool := !result.isEmpty

/-- The next token was sampled and is `id`. -/
def sampledAs (id : Token) (result : List Token) : Bool := decide (result.head? = some id)

variable {event : List Token → Bool}

theorem follows_nil (nothing : event [] = false) (ids : List Token) :
    follows event ids [] = false := by
  cases ids with
  | nil => exact nothing
  | cons id ids => rfl

theorem prob_follows_cons (nothing : event [] = false) (bonus : Candidates)
    (position : DraftPosition) (rest : List DraftPosition) (ids : List Token) :
    (sampleAndAcceptDists bonus (position :: rest)).prob (follows event (position.drafted :: ids)) =
      keepProb position * (sampleAndAcceptDists bonus rest).prob (follows event ids) := by
  rw [Law.prob, sampleAndAcceptDists, Law.expect_bind, expect_verify]
  have ends : (position.row.sample.bind (replacement position.row position.dist)).expect
      (fun id => (Law.dirac [id]).expect fun result =>
        if follows event (position.drafted :: ids) result then (1 : ℚ) else 0) = 0 := by
    have never : ∀ id, (Law.dirac [id]).expect (fun result =>
        if follows event (position.drafted :: ids) result then (1 : ℚ) else 0) = 0 := by
      intro id
      rw [Law.expect_dirac, follows, follows_nil nothing]
      simp
    simp only [never]
    rw [Law.expect_const, mul_zero]
  simp only [if_true, Bool.false_eq_true, if_false]
  rw [ends, mul_zero, Law.expect_bind]
  simp [Law.prob, follows]

theorem prob_sampled (bonus : Candidates) (positions : List DraftPosition) :
    (sampleAndAcceptDists bonus positions).prob sampled = 1 := by
  have proper := total_sampleAndAcceptDists bonus positions
  rw [Law.prob]
  cases positions with
  | nil =>
    rw [Law.total, sampleAndAcceptDists, Law.expect_bind] at proper
    rw [sampleAndAcceptDists, Law.expect_bind]
    simpa [sampled] using proper
  | cons position rest =>
    rw [Law.total, sampleAndAcceptDists, Law.expect_bind] at proper
    rw [sampleAndAcceptDists, Law.expect_bind]
    refine Eq.trans ?_ proper
    congr 1
    funext emitted
    split
    · rw [Law.expect_bind, Law.expect_bind]
      simp [sampled]
    · simp [sampled]

theorem prob_sampledAs (bonus : Candidates) (position : DraftPosition)
    (rest : List DraftPosition) (id : Token) :
    (sampleAndAcceptDists bonus (position :: rest)).prob (sampledAs id) =
      keepProb position * (if position.drafted = id then 1 else 0) + (1 - keepProb position) *
        (position.row.sample.bind (replacement position.row position.dist)).expect
          fun other => if other = id then 1 else 0 := by
  rw [Law.prob, sampleAndAcceptDists, Law.expect_bind, expect_verify]
  have proper := total_sampleAndAcceptDists bonus rest
  congr 1
  · simp only [if_true, Law.expect_bind, Law.expect_dirac, sampledAs, List.head?_cons,
      Option.some.injEq, decide_eq_true_eq]
    rw [Law.expect_const, proper, one_mul]
  · simp [sampledAs]

/-- What follows a drafted index: the later positions and the row after them. -/
structure Continuation where
  positions : List DraftPosition
  bonus : Candidates

/-- The law of the result when the draft draws the token at a position from `q`, after the
drafted positions `before`. -/
def resultLaw (before : List DraftPosition) (row : Candidates) (q : TokenDist)
    (after : Nat × Token → Continuation) : Law (List Token) :=
  q.draw.bind fun drawn =>
    sampleAndAcceptDists (after drawn).bonus
      (before ++ ⟨row, q, drawn.2⟩ :: (after drawn).positions)

/-- The probability that the position after `before` is sampled. -/
def reached (before : List DraftPosition) (row : Candidates) (q : TokenDist)
    (after : Nat × Token → Continuation) : ℚ :=
  (resultLaw before row q after).prob (follows sampled (before.map DraftPosition.drafted))

/-- The probability that it is sampled and emits `id`. -/
def emission (before : List DraftPosition) (row : Candidates) (q : TokenDist)
    (after : Nat × Token → Continuation) (id : Token) : ℚ :=
  (resultLaw before row q after).prob (follows (sampledAs id) (before.map DraftPosition.drafted))

/-- The `p` fields add up to one, or the proposal is nowhere below them, or it is
proportional to them where they are positive. -/
def Unbiased (row : Candidates) (q : TokenDist) : Prop :=
  (row.data.map TokenData.p).sum = 1 ∨ (∀ id, row.prob id ≤ q.qProbs id) ∨
    ∃ c, ∀ id, 0 < row.prob id → q.qProbs id = c * row.prob id

/-- The probability that all the drafted tokens of `before` are kept. -/
def keptProb (before : List DraftPosition) : ℚ := (before.map keepProb).prod

theorem prob_follows (nothing : event [] = false) (bonus : Candidates)
    (before tail : List DraftPosition) : (sampleAndAcceptDists bonus (before ++ tail)).prob
        (follows event (before.map DraftPosition.drafted)) =
      keptProb before * (sampleAndAcceptDists bonus tail).prob event := by
  induction before with
  | nil =>
    have empty : keptProb [] = 1 := rfl
    rw [empty, one_mul]
    rfl
  | cons position before ih =>
    have step : keptProb (position :: before) = keepProb position * keptProb before := by
      simp [keptProb]
    rw [step, mul_assoc, ← ih]
    exact prob_follows_cons nothing _ _ _ _

theorem resultLaw_prob (nothing : event [] = false) (before : List DraftPosition)
    (row : Candidates) (q : TokenDist) (after : Nat × Token → Continuation) :
    (resultLaw before row q after).prob (follows event (before.map DraftPosition.drafted)) =
      (q.draw.expect fun drawn =>
        (sampleAndAcceptDists (after drawn).bonus
          (⟨row, q, drawn.2⟩ :: (after drawn).positions)).prob event) * keptProb before := by
  rw [Law.prob, resultLaw, Law.expect_bind, ← Law.expect_mul_right]
  congr 1
  funext drawn
  rw [mul_comm]
  exact prob_follows nothing _ _ _

theorem total_draw (q : TokenDist) : q.draw.total = 1 := by
  rw [← q.sum]
  simp only [Law.total, Law.expect, TokenDist.draw]
  have values : (q.entries.zipIdx.map Prod.fst).map TokenData.p = q.entries.map TokenData.p := by
    rw [zipIdx_map_fst]
  rw [map_map] at values
  rw [← values]
  simp [Function.comp_def]

theorem sum_qProbs (row : Candidates) (q : TokenDist) :
    ∑ id ∈ support row q, q.qProbs id = 1 := by
  have summed := expect_draw row q fun _ => 1
  simp only [mul_one] at summed
  rw [← summed]
  exact total_draw q

theorem reached_eq (before : List DraftPosition) (row : Candidates) (q : TokenDist)
    (after : Nat × Token → Continuation) : reached before row q after = keptProb before := by
  rw [reached, resultLaw_prob rfl]
  simp only [prob_sampled]
  rw [Law.expect_const, total_draw, one_mul, one_mul]

/-- The token that stands at a reached position is distributed as `emitted`. -/
theorem emission_eq (before : List DraftPosition) (row : Candidates) (q : TokenDist)
    (after : Nat × Token → Continuation) (id : Token) (listed : id ∈ support row q) :
    emission before row q after id =
      keptProb before * emitted (support row q) row.prob q.qProbs id := by
  rw [emission, resultLaw_prob rfl, mul_comm]
  congr 1
  simp only [prob_sampledAs]
  rw [expect_draw row q fun drafted => keepProb ⟨row, q, drafted⟩ *
      (if drafted = id then 1 else 0) + (1 - keepProb ⟨row, q, drafted⟩) *
        (row.sample.bind (replacement row q)).expect fun other => if other = id then 1 else 0]
  have spread : ∀ drafted, q.qProbs drafted * (keepProb ⟨row, q, drafted⟩ *
      (if drafted = id then 1 else 0) + (1 - keepProb ⟨row, q, drafted⟩) *
        (row.sample.bind (replacement row q)).expect fun other => if other = id then 1 else 0) =
      (if drafted = id then min (row.prob drafted) (q.qProbs drafted) else 0) +
        (q.qProbs drafted - min (row.prob drafted) (q.qProbs drafted)) *
          (row.sample.bind (replacement row q)).expect fun other => if other = id then 1 else 0 := by
    intro drafted
    rw [← mul_keepProb row q drafted]
    split <;> ring
  simp only [spread]
  rw [Finset.sum_add_distrib, ← Finset.sum_mul, Finset.sum_sub_distrib, sum_qProbs,
    Finset.sum_ite_eq', if_pos listed, expect_replacement, emitted]
  congr 2
  simp only [mul_ite, mul_one, mul_zero]
  rw [Finset.sum_ite_eq', if_pos listed]

theorem emission_unlisted (before : List DraftPosition) (row : Candidates) (q : TokenDist)
    (after : Nat × Token → Continuation) (id : Token) (unlisted : id ∉ support row q) :
    emission before row q after id = 0 := by
  rw [emission, resultLaw_prob rfl]
  simp only [prob_sampledAs]
  rw [expect_draw row q fun drafted => keepProb ⟨row, q, drafted⟩ *
      (if drafted = id then 1 else 0) + (1 - keepProb ⟨row, q, drafted⟩) *
        (row.sample.bind (replacement row q)).expect fun other => if other = id then 1 else 0,
    expect_replacement]
  simp [unlisted]

theorem prob_unlisted {row : Candidates} {q : TokenDist} {id : Token}
    (unlisted : id ∉ support row q) : row.prob id = 0 ∧ q.qProbs id = 0 := by
  simp only [support, mem_toFinset, mem_append, not_or] at unlisted
  refine ⟨Candidates.prob_of_absent unlisted.1, ?_⟩
  rw [qProbs_eq_mass]
  apply Law.mass_eq_zero
  intro run member same
  obtain ⟨c, inside, rfl⟩ := mem_map.mp member
  exact unlisted.2 (same ▸ mem_map_of_mem inside)

theorem unbiased_iff_exact (row : Candidates) (q : TokenDist) :
    Unbiased row q ↔ Exact (support row q) row.prob q.qProbs := by
  have total : weight (support row q) row.prob = (row.data.map TokenData.p).sum := by
    rw [← total_weights, weights_total]
  rw [Exact, total]
  refine or_congr Iff.rfl (or_congr ?_ (exists_congr fun c => ?_))
  · constructor
    · exact fun dominated id _ => dominated id
    · intro dominated id
      by_cases listed : id ∈ support row q
      · exact dominated id listed
      · rw [(prob_unlisted listed).1, (prob_unlisted listed).2]
  · constructor
    · exact fun proportional id _ => proportional id
    · intro proportional id above
      by_cases listed : id ∈ support row q
      · exact proportional id listed above
      · rw [(prob_unlisted listed).1] at above
        exact absurd above (lt_irrefl 0)

/-- A draft position emits the target's tokens with the target's probabilities exactly when
it is never reached or the candidates' fields and the proposal are unbiased there. -/
theorem sampleAndAcceptDists_unbiased_iff (before : List DraftPosition) (row : Candidates)
    (q : TokenDist) (after : Nat × Token → Continuation) :
    (∀ id, emission before row q after id = reached before row q after * row.target id) ↔
      reached before row q after = 0 ∨ Unbiased row q := by
  have total : weight (support row q) row.prob = (row.data.map TokenData.p).sum := by
    rw [← total_weights, weights_total]
  have positive : weight (support row q) row.prob ≠ 0 := by
    rw [total]
    exact row.positive.ne'
  have listed_iff := emitted_exact_iff (fun id (_ : id ∈ support row q) => row.prob_nonneg id)
    (fun id _ => qProbs_nonneg q id) positive
  rw [unbiased_iff_exact, ← listed_iff, reached_eq, total]
  constructor
  · intro same
    by_cases never : keptProb before = 0
    · exact Or.inl never
    · refine Or.inr fun id listed => ?_
      apply mul_left_cancel₀ never
      rw [← emission_eq before row q after id listed]
      exact same id
  · intro cases_ id
    by_cases listed : id ∈ support row q
    · rw [emission_eq before row q after id listed]
      rcases cases_ with never | exact_
      · rw [never, zero_mul, zero_mul]
      · rw [exact_ id listed]
        rfl
    · rw [emission_unlisted before row q after id listed, Candidates.target,
        (prob_unlisted listed).1, zero_div, mul_zero]

/-- Token 0 is twice as likely as token 1; `llama_sample_dist` does not normalise. -/
def twoToOne : Candidates where
  data := softmax false [⟨0, 2⟩, ⟨1, 1⟩]
  nodup := by decide +kernel
  nonneg := by decide +kernel
  positive := by decide +kernel

def evenProposal : TokenDist :=
  proposalDist [⟨0, 1⟩, ⟨1, 1⟩] (by decide +kernel) (cons_ne_nil _ _)

/-- Every draft is kept, so token 0 is emitted half of the time instead of two thirds. -/
theorem sampleAndAcceptDists_biased_at_twoToOne :
    emission [] twoToOne evenProposal (fun _ => ⟨[], twoToOne⟩) 0 = 1 / 2 ∧
      reached [] twoToOne evenProposal (fun _ => ⟨[], twoToOne⟩) * twoToOne.target 0 = 2 / 3 ∧
      ¬ ∀ id, emission [] twoToOne evenProposal (fun _ => ⟨[], twoToOne⟩) id =
        reached [] twoToOne evenProposal (fun _ => ⟨[], twoToOne⟩) * twoToOne.target id := by
  have half : emission [] twoToOne evenProposal (fun _ => ⟨[], twoToOne⟩) 0 = 1 / 2 := by
    decide +kernel
  have twoThirds :
      reached [] twoToOne evenProposal (fun _ => ⟨[], twoToOne⟩) * twoToOne.target 0 = 2 / 3 := by
    decide +kernel
  refine ⟨half, twoThirds, fun same => ?_⟩
  have equal := same 0
  rw [half, twoThirds] at equal
  norm_num at equal

end LlamaCpp.Sampling
