import LlamaCpp.Samplers.Dry
import LlamaCpp.Samplers.Filters

/-!
# The sampler queue

`sampler_queue` applies the samplers in the order of the parameters, and the adaptive one at
the end.
-/

set_option autoImplicit false

namespace LlamaCpp.Samplers

open LlamaCpp.Lib LlamaCpp.Common

inductive SamplerType where
  | dry | topK | topP | minP | tfsZ | xtc | topNSigma | typicalP | temperature | adaptiveP | dist
deriving DecidableEq

/-- The parameters that the queue reads.  It is called with a positive temperature, and with
`min_keep` raised to 1. -/
structure SamplingParams where
  temp : ℚ
  dynatempRange : ℚ
  dynatempExponent : ℚ
  topK : Int
  topP : ℚ
  minP : ℚ
  tfsZ : ℚ
  typicalP : ℚ
  xtcProbability : ℚ
  xtcThreshold : ℚ
  topNSigma : ℚ
  minKeep : Nat
  warm : 0 < temp
  keeps : 1 ≤ minKeep

/-- The candidates, the DRY sampler, the adaptive one if there is one, and the numbers that the
generator will give. -/
structure QueueState where
  cur : TokenDataArray
  dry : Dry
  adaptive : Option AdaptiveP
  chances : Nat → ℚ
  useAdaptive : Bool

namespace QueueState

def withCur (st : QueueState) (cur : TokenDataArray) : QueueState := { st with cur := cur }

end QueueState

section

variable (std : StdSort) (m : CMath) (params : SamplingParams)

def dynatempMin : ℚ := max 0 (params.temp - params.dynatempRange)

def dynatempMax : ℚ := max 0 (params.temp + params.dynatempRange)

def applySampler (sampler : SamplerType) (st : QueueState) : Option QueueState :=
  match sampler with
  | .dry =>
    let (dry, cur) := st.dry.apply m.log st.cur
    some { st with dry := dry, cur := cur }
  | .topK => some (st.withCur (topK std st.cur params.topK params.minKeep))
  | .tfsZ => (tailFree std m st.cur params.tfsZ params.minKeep).map st.withCur
  | .typicalP => (typical std m st.cur params.typicalP params.minKeep).map st.withCur
  | .topP => (topP std m st.cur params.topP params.minKeep).map st.withCur
  | .minP => some (st.withCur (minP std m st.cur params.minP params.minKeep))
  | .xtc =>
    (xtc std m st.cur params.xtcProbability params.xtcThreshold (st.chances 0)
      params.minKeep).map fun cur =>
        { st with cur := cur, chances := fun i => st.chances (i + 1) }
  | .topNSigma => (topNSigma std m st.cur params.topNSigma).map st.withCur
  | .dist => (softmax std m st.cur false).map st.withCur
  | .temperature =>
    if 0 < params.dynatempRange then
      (entropy std m st.cur (dynatempMin params) (dynatempMax params)
        params.dynatempExponent).map st.withCur
    else some (st.withCur (temperature st.cur params.temp))
  | .adaptiveP => some { st with useAdaptive := st.adaptive.isSome }

/-- `std::clamp(x, 0, 1)`. -/
def clampUnit (x : ℚ) : ℚ := max 0 (min x 1)

def adaptedLogit (fusedWidth fusedTarget p : ℚ) : ℚ :=
  let dist := |p * fusedWidth - fusedTarget|
  5 - 10 * dist * dist / (1 + dist)

/-- `max_l` in `llama_sample_adaptive_p_impl`. -/
def adaptiveMax (candidates : TokenDataArray) : Logit :=
  match candidates.data with
  | [] => ⊥
  | first :: _ => if candidates.sorted then first.logit else maxLogit candidates.data

def adaptedTarget (ctx : AdaptiveP) : ℚ :=
  let (weightedSum, totalWeight) := ctx.history.getLast ctx.started
  let target := clampUnit ctx.target
  clampUnit (if totalWeight = 0 then target else 2 * target - weightedSum / totalWeight)

def maybeMasked (c : TokenData) : Bool := decide (c.logit ≤ ((-999 : ℚ) : Logit))

def adapt (ctx : AdaptiveP) (cumSum : Num) (c : TokenData) : TokenData :=
  let invWidth := 1 / (3 / 10)
  match c.p, cumSum with
  | some p, some sum =>
    if maybeMasked c then c
    else { c with logit := (adaptedLogit (invWidth / sum) (adaptedTarget ctx * invWidth) p : ℚ) }
  | _, _ => c

/-- `llama_sample_adaptive_p_impl`. -/
def adaptiveP (candidates : TokenDataArray) (ctx : AdaptiveP) :
    Option (TokenDataArray × AdaptiveP) :=
  if ctx.target < 0 then (softmax std m candidates true).map fun cur => (cur, ctx)
  else if candidates.data = [] then none
  else
    let weighted := candidates.data.map fun c =>
      { c with p := prob m (adaptiveMax candidates) c.logit }
    let cumSum := Num.sum (weighted.map TokenData.p)
    let ctx' := { ctx with cumOrigProb := if ctx.updtWCur then cumSum else ctx.cumOrigProb }
    if ctx'.cumOrigProb = some 0 then some ({ candidates with data := weighted }, ctx')
    else
      let adapted := weighted.map (adapt ctx' cumSum)
      let maxXform := (weighted.zip adapted).foldl (fun top pair =>
        if maybeMasked pair.1 then top else max top pair.2.logit) ⊥
      some ({ data := adapted, sorted := false }, { ctx' with maxXformLogit := maxXform })

def applySamplers (samplers : List SamplerType) (st : QueueState) : Option QueueState :=
  samplers.foldlM (fun st sampler => applySampler std m params sampler st) st

def samplerQueue (samplers : List SamplerType) (st : QueueState) : Option QueueState := do
  let queued ← applySamplers std m params samplers { st with useAdaptive := false }
  match queued.useAdaptive, queued.adaptive with
  | true, some ctx =>
    let (cur, ctx') ← adaptiveP std m queued.cur ctx
    return { queued with cur := cur, adaptive := some ctx' }
  | _, _ => return queued

end

end LlamaCpp.Samplers
