import LlamaCpp.Lib.InverseCdf
import LlamaCpp.Samplers.Sort

/-!
# Drawing a token

`llama_sample_token_with_rng_impl` and `llama_sample_token_adaptive_p_impl` look a raw draw up
among the cumulative weights, the last of which is raised as a margin for draws near the
maximum of the generator.  At the maximum itself the margin is all that stops the search, and
the last candidate is returned whatever its weight.
-/

set_option autoImplicit false

namespace LlamaCpp.Samplers

open LlamaCpp.Lib LlamaCpp.Common List

/-- `expf` over exact numbers: low arguments may underflow to zero. -/
structure Expf where
  exp : ℚ → ℚ
  exp_zero : exp 0 = 1
  nonneg : ∀ x, 0 ≤ exp x
  mono : ∀ x y, x ≤ y → exp x ≤ exp y

/-- `expf(logit - top)`.  Below minus infinity the difference is not a number in the source; the
results leave such arrays out. -/
def Expf.weight (f : Expf) : (top logit : Logit) → ℚ
  | some m, some l => f.exp (l - m)
  | _, _ => 0

/-- `std::mt19937::max()`. -/
def rngMax : Nat := 4294967295

def maxLogit : List TokenData → Logit
  | [] => ⊥
  | first :: rest => rest.foldl (fun top c => max top c.logit) first.logit

/-- The index that the draw `r` selects; the cumulative weights end with the raised one. -/
def drawIndex (weights : List ℚ) (margin : ℚ) (r : Nat) : Option Nat :=
  upperBound (raiseLast margin (cumulative 0 weights)) (weights.sum * r / rngMax)

/-- The index in `llama_sample_token_with_rng_impl`; there is none where it aborts. -/
def indexWithRng (f : Expf) (data : List TokenData) (r : Nat) : Option Nat :=
  if data.length < 2 then some 0
  else
    let weights := data.map fun c => f.weight (maxLogit data) c.logit
    drawIndex weights weights.sum r

def llamaSampleTokenWithRng (f : Expf) (data : List TokenData) (r : Nat) : Option Token := do
  let idx ← indexWithRng f data r
  let c ← data[idx]?
  return c.id

/-- `llama_sampler_adaptive_p` without its generator and the scratch array. -/
structure AdaptiveP where
  target : ℚ
  decay : ℚ
  updtWCur : Bool
  history : List (ℚ × ℚ)
  started : history ≠ []
  origProb : List ℚ
  cumOrigProb : Num
  maxXformLogit : Logit

def AdaptiveP.update (ctx : AdaptiveP) : Num → AdaptiveP
  | none => ctx
  | some updateProb =>
    if 0 < updateProb then
      let (weightedSum, totalWeight) := ctx.history.getLast ctx.started
      { ctx with
        history := ctx.history ++
          [(ctx.decay * weightedSum + updateProb, ctx.decay * totalWeight + 1)]
        started := by simp }
    else ctx

/-- The index in `llama_sample_token_adaptive_p_impl`, which falls back to temperature sampling
with the other generator. -/
def indexAdaptiveP (f : Expf) (data : List TokenData) (ctx : AdaptiveP) (r ctxR : Nat) :
    Option Nat :=
  if ctx.cumOrigProb = some 0 then indexWithRng f data r
  else if data.length = 0 then none
  else drawIndex (data.map fun c => f.weight ctx.maxXformLogit c.logit) 1 ctxR

/-- `llama_sample_token_adaptive_p_impl`, with the draws `r` and `ctxR` of the two generators. -/
def llamaSampleTokenAdaptiveP (f : Expf) (data : List TokenData) (ctx : AdaptiveP)
    (r ctxR : Nat) : Option (Token × AdaptiveP) := do
  let idx ← indexAdaptiveP f data ctx r ctxR
  let c ← data[idx]?
  if ctx.cumOrigProb = some 0 then return (c.id, ctx)
  else if c.id < ctx.origProb.length then
    let prob : Num := if ctx.updtWCur then c.p else ctx.origProb[c.id.toNat]?
    return (c.id, ctx.update (Option.map₂ (· / ·) prob ctx.cumOrigProb))
  else none

/-- The token that comes back is that of a candidate of positive weight, in particular of one
that is not masked out, and below the maximum the draw falls into its step. -/
def DrawsPositive (data : List TokenData) (weight : TokenData → ℚ) (r : Nat)
    (idx : Option Nat) (token : Option Token) : Prop :=
  ∃ i c, idx = some i ∧ data[i]? = some c ∧ token = some c.id ∧ 0 < weight c ∧ c.logit ≠ ⊥ ∧
    (r < rngMax →
      weightBefore (data.map weight) i ≤ (data.map weight).sum * r / rngMax ∧
        (data.map weight).sum * r / rngMax < weightBefore (data.map weight) (i + 1))

def SafeDraw (data : List TokenData) (weight : TokenData → ℚ) (r : Nat) : Prop :=
  r < rngMax ∨ ∃ c, data.getLast? = some c ∧ 0 < weight c

theorem rngMax_pos : (0 : ℚ) < rngMax := by norm_num [rngMax]

variable {total : ℚ}

theorem point_nonneg (positive : 0 < total) (r : Nat) : 0 ≤ total * r / rngMax :=
  div_nonneg (mul_nonneg positive.le (Nat.cast_nonneg r)) rngMax_pos.le

theorem point_below (positive : 0 < total) {r : Nat} (below : r < rngMax) :
    total * r / rngMax < total := by
  rw [div_lt_iff₀ rngMax_pos]
  exact mul_lt_mul_of_pos_left (by exact_mod_cast below) positive

theorem point_top : total * (rngMax : Nat) / rngMax = total :=
  mul_div_cancel_right₀ total rngMax_pos.ne'

section

variable {data : List TokenData} {weight : TokenData → ℚ} {margin : ℚ} {r : Nat}

theorem weights_total (nonneg : ∀ c, 0 ≤ weight c) (positive : ∃ c ∈ data, 0 < weight c) :
    0 < (data.map weight).sum := by
  have each : ∀ w ∈ data.map weight, 0 ≤ w := by
    intro w member
    obtain ⟨c, _, rfl⟩ := mem_map.mp member
    exact nonneg c
  obtain ⟨c, member, more⟩ := positive
  exact more.trans_le (single_le_sum each _ (mem_map_of_mem member))

theorem drawIndex_below (positive : 0 < (data.map weight).sum) (raised : 0 < margin)
    (below : r < rngMax) :
    ∃ i c, drawIndex (data.map weight) margin r = some i ∧ data[i]? = some c ∧ 0 < weight c ∧
      weightBefore (data.map weight) i ≤ (data.map weight).sum * r / rngMax ∧
        (data.map weight).sum * r / rngMax < weightBefore (data.map weight) (i + 1) := by
  obtain ⟨i, w, stops, found, lower, upper⟩ := upperBound_below raised.le 0
    (point_nonneg positive r) (by rw [zero_add]; exact point_below positive below)
  rw [zero_add] at lower upper
  rw [List.getElem?_map] at found
  obtain ⟨c, at_, rfl⟩ := Option.map_eq_some_iff.mp found
  refine ⟨i, c, stops, at_, ?_, lower, upper⟩
  have width : weightBefore (data.map weight) (i + 1) =
      weightBefore (data.map weight) i + weight c :=
    weightBefore_succ (by rw [List.getElem?_map, at_]; rfl)
  linarith

theorem drawIndex_top (nonneg : ∀ c, 0 ≤ weight c) (raised : 0 < margin) (some_ : data ≠ []) :
    drawIndex (data.map weight) margin rngMax = some (data.length - 1) := by
  have each : ∀ w ∈ data.map weight, 0 ≤ w := by
    intro w member
    obtain ⟨c, _, rfl⟩ := mem_map.mp member
    exact nonneg c
  have last := upperBound_total raised each 0 (by simpa using some_)
  rw [zero_add, length_map] at last
  rw [drawIndex, point_top, last]

theorem drawIndex_draws (nonneg : ∀ c, 0 ≤ weight c)
    (masked : ∀ c : TokenData, c.logit = ⊥ → weight c = 0)
    (positive : ∃ c ∈ data, 0 < weight c) (raised : 0 < margin) (inRange : r ≤ rngMax)
    {idx : Option Nat} (searched : idx = drawIndex (data.map weight) margin r) :
    DrawsPositive data weight r idx (idx.bind fun i => data[i]?.map TokenData.id) ↔
      SafeDraw data weight r := by
  have total := weights_total nonneg positive
  have unmasked : ∀ c : TokenData, 0 < weight c → c.logit ≠ ⊥ :=
    fun c more isMasked => more.ne' (masked c isMasked)
  have some_ : data ≠ [] := by
    rintro rfl
    simp at positive
  have lastAt : data[data.length - 1]? = data.getLast? := (List.getLast?_eq_getElem? ..).symm
  by_cases below : r < rngMax
  · refine iff_of_true ?_ (Or.inl below)
    obtain ⟨i, c, stops, at_, more, lower, upper⟩ := drawIndex_below total raised below
    rw [searched, stops]
    exact ⟨i, c, rfl, at_, by simp [at_], more, unmasked c more, fun _ => ⟨lower, upper⟩⟩
  · have top : r = rngMax := by omega
    subst top
    rw [searched, drawIndex_top nonneg raised some_]
    constructor
    · rintro ⟨i, c, same, at_, _, more, _⟩
      rw [Option.some.injEq] at same
      rw [← same, lastAt] at at_
      exact Or.inr ⟨c, at_, more⟩
    · rintro (less | ⟨c, isLast, more⟩)
      · exact absurd less (lt_irrefl _)
      · rw [← lastAt] at isLast
        exact ⟨_, c, rfl, isLast, by simp [isLast], more, unmasked c more,
          fun less => absurd less (lt_irrefl _)⟩

theorem single_draws (masked : ∀ c : TokenData, c.logit = ⊥ → weight c = 0)
    (positive : ∃ c ∈ data, 0 < weight c) (single : data.length < 2) :
    DrawsPositive data weight r (some 0)
        ((some 0).bind fun i => data[i]?.map TokenData.id) ↔
      SafeDraw data weight r := by
  obtain ⟨c, member, more⟩ := positive
  cases data with
  | nil => simp at member
  | cons first rest =>
    rw [length_cons] at single
    obtain rfl : rest = [] := length_eq_zero_iff.mp (by omega)
    rw [mem_singleton] at member
    subst member
    refine iff_of_true ⟨0, c, rfl, rfl, rfl, more, ?_, ?_⟩ (Or.inr ⟨c, rfl, more⟩)
    · exact fun isMasked => more.ne' (masked c isMasked)
    · intro below
      have total : 0 < ([c].map weight).sum := by simpa using more
      exact ⟨by simpa [weightBefore] using point_nonneg total r, point_below total below⟩

end

theorem Expf.weight_nonneg (f : Expf) (top logit : Logit) : 0 ≤ f.weight top logit := by
  cases top <;> cases logit <;> simp [Expf.weight, f.nonneg]

theorem Expf.weight_masked (f : Expf) (top : Logit) : f.weight top ⊥ = 0 := by
  cases top <;> rfl

theorem llamaSampleTokenWithRng_eq (f : Expf) (data : List TokenData) (r : Nat) :
    llamaSampleTokenWithRng f data r =
      (indexWithRng f data r).bind fun i => data[i]?.map TokenData.id := by
  cases found : indexWithRng f data r with
  | none => simp [llamaSampleTokenWithRng, found]
  | some i => cases at_ : data[i]? <;> simp [llamaSampleTokenWithRng, found, at_]

theorem indexWithRng_draws (f : Expf) {data : List TokenData} {r : Nat} (inRange : r ≤ rngMax)
    (positive : ∃ c ∈ data, 0 < f.weight (maxLogit data) c.logit) :
    DrawsPositive data (fun c => f.weight (maxLogit data) c.logit) r (indexWithRng f data r)
        (llamaSampleTokenWithRng f data r) ↔
      SafeDraw data (fun c => f.weight (maxLogit data) c.logit) r := by
  have masked : ∀ c : TokenData, c.logit = ⊥ → f.weight (maxLogit data) c.logit = 0 := by
    intro c isMasked
    rw [isMasked, f.weight_masked]
  rw [llamaSampleTokenWithRng_eq]
  by_cases single : data.length < 2
  · rw [indexWithRng, if_pos single]
    exact single_draws masked positive single
  · have nonneg : ∀ c : TokenData, 0 ≤ f.weight (maxLogit data) c.logit :=
      fun c => f.weight_nonneg _ _
    exact drawIndex_draws nonneg masked positive (weights_total nonneg positive) inRange
      (by rw [indexWithRng, if_neg single])

def adaptiveTop (data : List TokenData) (ctx : AdaptiveP) : Logit :=
  if ctx.cumOrigProb = some 0 then maxLogit data else ctx.maxXformLogit

/-- The draw that `llama_sample_token_adaptive_p_impl` uses. -/
def adaptiveR (ctx : AdaptiveP) (r ctxR : Nat) : Nat := if ctx.cumOrigProb = some 0 then r else ctxR

theorem adaptiveP_token (f : Expf) {data : List TokenData} {ctx : AdaptiveP} {r ctxR : Nat}
    (known : ∀ c ∈ data, c.id < ctx.origProb.length) :
    (llamaSampleTokenAdaptiveP f data ctx r ctxR).map Prod.fst =
      (indexAdaptiveP f data ctx r ctxR).bind fun i => data[i]?.map TokenData.id := by
  cases found : indexAdaptiveP f data ctx r ctxR with
  | none => simp [llamaSampleTokenAdaptiveP, found]
  | some i =>
    cases at_ : data[i]? with
    | none => simp [llamaSampleTokenAdaptiveP, found, at_]
    | some c =>
      have inside := known c (mem_of_getElem? at_)
      simp only [llamaSampleTokenAdaptiveP, found, at_, Option.bind_eq_bind,
        Option.bind_some]
      split <;> rfl

theorem indexAdaptiveP_draws (f : Expf) {data : List TokenData} {ctx : AdaptiveP} {r ctxR : Nat}
    (inRange : r ≤ rngMax) (ctxInRange : ctxR ≤ rngMax)
    (positive : ∃ c ∈ data, 0 < f.weight (adaptiveTop data ctx) c.logit)
    (known : ∀ c ∈ data, c.id < ctx.origProb.length) :
    DrawsPositive data (fun c => f.weight (adaptiveTop data ctx) c.logit) (adaptiveR ctx r ctxR)
        (indexAdaptiveP f data ctx r ctxR)
        ((llamaSampleTokenAdaptiveP f data ctx r ctxR).map Prod.fst) ↔
      SafeDraw data (fun c => f.weight (adaptiveTop data ctx) c.logit)
        (adaptiveR ctx r ctxR) := by
  rw [adaptiveP_token f known]
  by_cases fallback : ctx.cumOrigProb = some 0
  · simp only [adaptiveTop, adaptiveR, indexAdaptiveP, if_pos fallback] at positive ⊢
    rw [← llamaSampleTokenWithRng_eq]
    exact indexWithRng_draws f inRange positive
  · simp only [adaptiveTop, adaptiveR, indexAdaptiveP, if_neg fallback] at positive ⊢
    have some_ : data.length ≠ 0 := by
      intro none
      obtain ⟨c, member, -⟩ := positive
      exact absurd (length_eq_zero_iff.mp none) (ne_nil_of_mem member)
    rw [if_neg some_]
    refine drawIndex_draws (fun c => f.weight_nonneg _ _) ?_ positive one_pos ctxInRange rfl
    intro c isMasked
    rw [isMasked, f.weight_masked]

theorem foldl_max_mem (start : Logit) (rest : List TokenData) :
    rest.foldl (fun top c => max top c.logit) start ∈ start :: rest.map TokenData.logit := by
  induction rest generalizing start with
  | nil => simp
  | cons c rest ih =>
    rw [foldl_cons]
    have found := ih (max start c.logit)
    rcases max_choice start c.logit with same | same <;> rw [same] at found ⊢ <;>
      simp only [mem_cons] at found ⊢ <;> tauto

theorem le_foldl_max (start : Logit) (rest : List TokenData) :
    start ≤ rest.foldl (fun top c => max top c.logit) start ∧
      ∀ c ∈ rest, c.logit ≤ rest.foldl (fun top c => max top c.logit) start := by
  induction rest generalizing start with
  | nil => simp
  | cons first rest ih =>
    obtain ⟨above, others⟩ := ih (max start first.logit)
    refine ⟨(le_max_left _ _).trans above, ?_⟩
    intro c member
    rcases mem_cons.mp member with rfl | inRest
    · exact (le_max_right _ _).trans above
    · exact others c inRest

theorem logit_le_maxLogit {data : List TokenData} {c : TokenData} (member : c ∈ data) :
    c.logit ≤ maxLogit data := by
  cases data with
  | nil => simp at member
  | cons first rest =>
    rcases mem_cons.mp member with rfl | inRest
    · exact (le_foldl_max _ rest).1
    · exact (le_foldl_max _ rest).2 c inRest

theorem maxLogit_attained {data : List TokenData} (some_ : data ≠ []) :
    ∃ c ∈ data, c.logit = maxLogit data := by
  cases data with
  | nil => exact absurd rfl some_
  | cons first rest =>
    have found := foldl_max_mem first.logit rest
    rw [← map_cons, mem_map] at found
    exact found

theorem weight_maxLogit_pos (f : Expf) {data : List TokenData}
    (unmasked : ∃ c ∈ data, c.logit ≠ ⊥) :
    ∃ c ∈ data, 0 < f.weight (maxLogit data) c.logit := by
  obtain ⟨c, member, notMasked⟩ := unmasked
  obtain ⟨top, isThere, largest⟩ := maxLogit_attained (ne_nil_of_mem member)
  refine ⟨top, isThere, ?_⟩
  have notBottom : maxLogit data ≠ ⊥ := by
    intro bottom
    exact notMasked (le_bot_iff.mp (bottom ▸ logit_le_maxLogit member))
  obtain ⟨m, isMax⟩ := WithBot.ne_bot_iff_exists.mp notBottom
  rw [largest, ← isMax]
  show 0 < f.exp (m - m)
  rw [sub_self, f.exp_zero]
  exact one_pos

def tangentExp : Expf where
  exp := fun x => max 0 (1 + x)
  exp_zero := by norm_num
  nonneg := fun x => le_max_left _ _
  mono := fun x y le => max_le_max le_rfl (by linarith)

def maskedLast : List TokenData :=
  [{ id := 0, logit := ((0 : ℚ) : Logit), p := some 1 }, { id := 1, logit := ⊥, p := some 0 }]

def freshAdaptiveP : AdaptiveP where
  target := 1 / 2
  decay := 0
  updtWCur := true
  history := [(1 / 2, 1)]
  started := by simp
  origProb := [0, 0]
  cumOrigProb := some 1
  maxXformLogit := ((0 : ℚ) : Logit)

theorem maskedLast_positive {top : Logit} (isTop : top = ((0 : ℚ) : Logit)) :
    ∃ c ∈ maskedLast, 0 < tangentExp.weight top c.logit := by
  refine ⟨_, mem_cons_self, ?_⟩
  rw [isTop]
  show (0 : ℚ) < max 0 (1 + (0 - 0))
  norm_num

theorem fresh_notFallback : freshAdaptiveP.cumOrigProb ≠ some 0 := by
  simp [freshAdaptiveP]

theorem maskedLast_top : maxLogit maskedLast = ((0 : ℚ) : Logit) :=
  max_bot_right _

theorem masked_not_drawn (weight : TokenData → ℚ) (r : Nat) (token : Option Token) :
    ¬DrawsPositive maskedLast weight r (some 1) token := by
  rintro ⟨i, c, same, at_, -, -, unmasked, -⟩
  rw [← Option.some.inj same] at at_
  rw [← Option.some.inj at_] at unmasked
  exact unmasked rfl

end LlamaCpp.Samplers
