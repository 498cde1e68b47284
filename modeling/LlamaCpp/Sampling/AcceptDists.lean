import LlamaCpp.Common.ReasoningBudget
import LlamaCpp.Lib.Law
import LlamaCpp.Lib.Rejection
import Mathlib.MeasureTheory.Measure.Lebesgue.Basic

/-!
# Accepting drafts by rejection sampling

`sampleAndAcceptDists` models the second `common_sampler_sample_and_accept_n`, which compares
the `p` fields of the target's candidates with the draft's own distributions, over exact
rationals.  The fields come from the last sampler of the chain, and `llama_sample_dist`
leaves them relative to the largest one; the emitted tokens then follow the target only in
the cases of `Unbiased`.
-/

set_option autoImplicit false

namespace LlamaCpp.Sampling

open LlamaCpp.Lib LlamaCpp.Common List

/-- The `id` and `p` of a `llama_token_data`. -/
structure TokenData where
  id : Token
  p : ℚ
deriving DecidableEq

/-- `llama_sample_softmax_impl` on candidates whose `p` holds `exp(logit)`. -/
def softmax (normalize : Bool) (data : List TokenData) : List TokenData :=
  let top := (data.map TokenData.p).foldl max 0
  let scaled := data.map fun c => { c with p := c.p / top }
  if normalize then scaled.map fun c => { c with p := c.p / (scaled.map TokenData.p).sum }
  else scaled

/-- The candidates that `common_sampler_sample` leaves: the ids are those of the vocabulary. -/
structure Candidates where
  data : List TokenData
  nodup : (data.map TokenData.id).Nodup
  nonneg : ∀ c ∈ data, 0 ≤ c.p
  positive : 0 < (data.map TokenData.p).sum

/-- `common_speculative_token_dist`, the ids paired with their probabilities. -/
structure TokenDist where
  entries : List TokenData
  nonneg : ∀ c ∈ entries, 0 ≤ c.p
  sum : (entries.map TokenData.p).sum = 1

def weights (data : List TokenData) : Law Token := data.map fun c => (c.p, c.id)

theorem weights_total (data : List TokenData) :
    (weights data).total = (data.map TokenData.p).sum := by
  simp [Law.total, Law.expect, weights, Function.comp_def]

namespace Candidates

/-- The search for a token among the candidates; `0` when it is not listed. -/
def prob (row : Candidates) (id : Token) : ℚ :=
  ((row.data.find? fun c => decide (c.id = id)).map TokenData.p).getD 0

/-- The token that the target's sampler draws, by `llama_sample_token_with_rng`. -/
def sample (row : Candidates) : Law Token := (weights row.data).normalize

def target (row : Candidates) (id : Token) : ℚ := row.prob id / (row.data.map TokenData.p).sum

end Candidates

namespace TokenDist

/-- `q_probs`: the probabilities of a repeated id are added. -/
def qProbs (q : TokenDist) : Token → ℚ :=
  q.entries.foldl (fun m c => Function.update m c.id (m c.id + c.p)) fun _ => 0

/-- The index `std::discrete_distribution` draws for the draft, with its token. -/
def draw (q : TokenDist) : Law (Nat × Token) :=
  q.entries.zipIdx.map fun c => (c.1.p, (c.2, c.1.id))

end TokenDist

/-- The distribution of a DFlash draft position, from the ids and the values of
`exp((score - max_score) / temperature)`. -/
def proposalDist (scores : List TokenData) (positive : ∀ c ∈ scores, 0 < c.p)
    (nonempty : scores ≠ []) : TokenDist where
  entries := scores.map fun c => { c with p := c.p / (scores.map TokenData.p).sum }
  nonneg := by
    intro c member
    obtain ⟨score, inside, rfl⟩ := mem_map.mp member
    apply div_nonneg (positive score inside).le
    apply sum_nonneg
    intro x member
    obtain ⟨other, listed, rfl⟩ := mem_map.mp member
    exact (positive other listed).le
  sum := by
    have above : 0 < (scores.map TokenData.p).sum := by
      apply sum_pos
      · intro x member
        obtain ⟨other, listed, rfl⟩ := mem_map.mp member
        exact positive other listed
      · exact fun empty => nonempty (map_eq_nil_iff.mp empty)
    have scaled : (scores.map fun c => c.p / (scores.map TokenData.p).sum).sum =
        (scores.map TokenData.p).sum / (scores.map TokenData.p).sum := by
      simp [div_eq_mul_inv, sum_map_mul_right]
    simpa [map_map, Function.comp_def] using scaled.trans (div_self above.ne')

structure DraftPosition where
  row : Candidates
  dist : TokenDist
  drafted : Token

/-- `uniform(rng) * q <= p`, for `uniform` on `[0, 1)` and `0 < q`. -/
def uniformTest (q p : ℚ) : Law Bool := Law.flip (min 1 (p / q))

/-- `residual`, with the ids it is read by. -/
def residual (row : Candidates) (q : TokenDist) : Law Token :=
  row.data.map fun c => (max 0 (c.p - q.qProbs c.id), c.id)

def replacement (row : Candidates) (q : TokenDist) (fallback : Token) : Law Token :=
  if 0 < (residual row q).total then (residual row q).normalize else Law.dirac fallback

def accepts (position : DraftPosition) : Law Bool :=
  if 0 < position.dist.qProbs position.drafted then
    uniformTest (position.dist.qProbs position.drafted) (position.row.prob position.drafted)
  else Law.dirac false

def verify (position : DraftPosition) : Law (Bool × Token) :=
  position.row.sample.bind fun fallback =>
    (accepts position).bind fun kept =>
      if kept then Law.dirac (true, position.drafted)
      else (replacement position.row position.dist fallback).bind fun id => Law.dirac (false, id)

/-- `common_sampler_sample_and_accept_n` with draft distributions; `bonus` is the row after
the last drafted token. -/
def sampleAndAcceptDists (bonus : Candidates) : List DraftPosition → Law (List Token)
  | [] => bonus.sample.bind fun id => Law.dirac [id]
  | position :: rest =>
    (verify position).bind fun emitted =>
      if emitted.1 then (sampleAndAcceptDists bonus rest).bind fun tail =>
        Law.dirac (emitted.2 :: tail)
      else Law.dirac [emitted.2]

theorem uniformTest_volume (q p : ℚ) (positive : 0 < q) :
    MeasureTheory.volume {u : ℝ | u ∈ Set.Ico 0 1 ∧ u * q ≤ p} =
      ENNReal.ofReal ((uniformTest q p).prob id : ℚ) := by
  have positive' : (0 : ℝ) < q := by exact_mod_cast positive
  have share : (uniformTest q p).prob id = min 1 (p / q) := by
    simp [uniformTest, Law.prob]
  have cast_ : ((min 1 (p / q) : ℚ) : ℝ) = min 1 ((p : ℝ) / q) := by push_cast; rfl
  rw [share, cast_]
  have test : ∀ u : ℝ, u * q ≤ p ↔ u ≤ p / q := fun u => (le_div_iff₀ positive').symm
  rcases lt_or_ge ((p : ℝ) / q) 1 with below | above
  · have set_ : {u : ℝ | u ∈ Set.Ico 0 1 ∧ u * q ≤ p} = Set.Icc 0 ((p : ℝ) / q) := by
      ext u
      simp only [test]
      constructor
      · exact fun both => ⟨both.1.1, both.2⟩
      · exact fun both => ⟨⟨both.1, lt_of_le_of_lt both.2 below⟩, both.2⟩
    rw [set_, Real.volume_Icc, min_eq_right below.le, sub_zero]
  · have set_ : {u : ℝ | u ∈ Set.Ico 0 1 ∧ u * q ≤ p} = Set.Ico 0 1 := by
      ext u
      simp only [Set.mem_ofPred_eq, test, and_iff_left_iff_imp]
      exact fun inside => inside.2.le.trans above
    rw [set_, Real.volume_Ico, min_eq_left above, sub_zero]

end LlamaCpp.Sampling
