import LlamaCpp.Samplers.Draw

/-!
# The filters

The functions of `llama-sampling.cpp` that the sampler queue calls.  Arithmetic is exact, with
`none` for what is not a number: the weights when every candidate is masked out, and sums that
contain one.  A function returns `none` where the source asserts, or divides a logit by zero.
-/

set_option autoImplicit false

namespace LlamaCpp.Samplers

open LlamaCpp.Lib LlamaCpp.Common

/-- The functions of `math.h`, each with what the samplers rely on. -/
structure CMath where
  expf : Expf
  log : ℚ → ℚ
  log_one : log 1 = 0
  log_neg : ∀ x, 0 < x → x < 1 → log x < 0
  sqrt : ℚ → ℚ
  sqrt_nonneg : ∀ x, 0 ≤ sqrt x
  pow : ℚ → ℚ → ℚ
  pow_nonneg : ∀ x y, 0 ≤ x → 0 ≤ pow x y

namespace Num

def add (a b : Num) : Num := Option.map₂ (· + ·) a b

def sub (a b : Num) : Num := Option.map₂ (· - ·) a b

def mul (a b : Num) : Num := Option.map₂ (· * ·) a b

def div (a b : Num) : Num := Option.map₂ (· / ·) a b

def sum (xs : List Num) : Num := xs.foldl add (some 0)

def lt (a b : Num) : Bool := (Option.map₂ (fun x y => decide (x < y)) a b).getD false

def le (a b : Num) : Bool := (Option.map₂ (fun x y => decide (x ≤ y)) a b).getD false

def log (m : CMath) (a : Num) : Num := a.bind fun x => if x ≤ 0 then none else some (m.log x)

def abs (a : Num) : Num := a.map fun x => |x|

end Num

def cutAt (stop : Num → Nat → Bool) : (cumSum : Num) → (i : Nat) → List Num → Option Nat
  | _, _, [] => none
  | cumSum, i, p :: ps =>
    let cumSum' := Num.add cumSum p
    if stop cumSum' i then some i else cutAt stop cumSum' (i + 1) ps

section

variable (std : StdSort) (m : CMath)

/-- `expf(logit - max_l)`, where the logit is not above `max_l`. -/
def prob (maxL logit : Logit) : Num :=
  if maxL = ⊥ then none else some (m.expf.weight maxL logit)

/-- `llama_sample_softmax_impl`. -/
def softmax (candidates : TokenDataArray) (normalize : Bool) : Option TokenDataArray :=
  let sorted := llamaSort std candidates (-1)
  match sorted.data with
  | [] => none
  | first :: _ =>
    let weighted := sorted.data.map fun c => { c with p := prob m first.logit c.logit }
    let cumSum := Num.sum (weighted.map TokenData.p)
    let data := if normalize then weighted.map fun c => { c with p := Num.div c.p cumSum }
      else weighted
    some { data := data, sorted := sorted.sorted }

/-- `llama_sample_top_k_impl`. -/
def topK (candidates : TokenDataArray) (k : Int) (minKeep : Nat) : TokenDataArray :=
  let size : Int := candidates.data.length
  let k := min (max (if k ≤ 0 then size else k) minKeep) size
  let sorted := llamaSort std candidates k
  { sorted with data := sorted.data.take k.toNat }

/-- `llama_sample_top_p_impl`. -/
def topP (candidates : TokenDataArray) (p : ℚ) (minKeep : Nat) : Option TokenDataArray :=
  if 1 ≤ p then some candidates
  else do
    let weighted ← softmax std m candidates true
    let stop := fun (cumSum : Num) i => Num.le (some p) cumSum && decide (minKeep ≤ i + 1)
    let lastIdx := ((cutAt stop (some 0) 0 (weighted.data.map TokenData.p)).map (· + 1)).getD
      weighted.data.length
    return { weighted with data := weighted.data.take lastIdx }

def fltMax : ℚ := (2 ^ 24 - 1) * 2 ^ 104

/-- The loop of `llama_sample_min_p_impl` over the sorted candidates, from the index `i` on. -/
def minPEnd (minLogit : Logit) (minKeep : Nat) : (i : Nat) → List TokenData → Nat
  | i, [] => i
  | i, c :: rest =>
    if c.logit < minLogit ∧ minKeep ≤ i then i else minPEnd minLogit minKeep (i + 1) rest

/-- The sorted branch of `llama_sample_min_p_impl`. -/
def minPSorted (candidates : TokenDataArray) (p : ℚ) (minKeep : Nat) : TokenDataArray :=
  let sorted := llamaSort std candidates (-1)
  match sorted.data with
  | [] => sorted
  | first :: rest =>
    let minLogit := WithBot.map (· + m.log p) first.logit
    { sorted with data := sorted.data.take (minPEnd minLogit minKeep 1 rest) }

/-- `llama_sample_min_p_impl`. -/
def minP (candidates : TokenDataArray) (p : ℚ) (minKeep : Nat) : TokenDataArray :=
  if p ≤ 0 ∨ candidates.data.length = 0 then candidates
  else if candidates.sorted then minPSorted std m candidates p minKeep
  else
    let maxLogit := candidates.data.foldl (fun top c => max top c.logit) ((-fltMax : ℚ) : Logit)
    let minLogit := WithBot.map (· + m.log p) maxLogit
    let filtered := candidates.data.filter fun c => decide (minLogit ≤ c.logit)
    if minKeep ≤ filtered.length then { candidates with data := filtered }
    else minPSorted std m candidates p minKeep

def differences : List Num → List Num
  | a :: b :: rest => Num.sub a b :: differences (b :: rest)
  | _ => []

/-- The second derivatives of `llama_sample_tail_free_impl`, normalized. -/
def tailWeights (ps : List Num) : List Num :=
  let second := (differences (differences ps)).map Num.abs
  let sum := Num.sum second
  if Num.lt (some (1 / 1000000)) sum then second.map fun value => Num.div value sum
  else second.map fun _ => some (1 / second.length)

/-- `llama_sample_tail_free_impl`. -/
def tailFree (candidates : TokenDataArray) (z : ℚ) (minKeep : Nat) : Option TokenDataArray :=
  if 1 ≤ z ∨ candidates.data.length ≤ 2 then some candidates
  else do
    let weighted ← softmax std m candidates true
    let stop := fun (cumSum : Num) i => Num.lt (some z) cumSum && decide (max minKeep 1 ≤ i)
    let lastIdx := (cutAt stop (some 0) 0 (tailWeights (weighted.data.map TokenData.p))).getD
      weighted.data.length
    return { weighted with data := weighted.data.take lastIdx }

def shiftedScores (ps : List Num) : List Num :=
  let entropy := Num.sum (ps.map fun p => Num.mul (p.map Neg.neg) (Num.log m p))
  ps.map fun p => Num.abs (Num.sub ((Num.log m p).map Neg.neg) entropy)

/-- `llama_sample_typical_impl`; the candidates stand for their indices. -/
def typical (candidates : TokenDataArray) (p : ℚ) (minKeep : Nat) : Option TokenDataArray :=
  if 1 ≤ p then some candidates
  else do
    let weighted ← softmax std m candidates true
    let scores := shiftedScores m (weighted.data.map TokenData.p)
    let indices := std.sort (fun a b : Fin weighted.data.length =>
      Num.lt (scores.getD a none) (scores.getD b none)) (List.finRange _)
    let stop := fun (cumSum : Num) i => Num.lt (some p) cumSum && decide (minKeep ≤ i + 1)
    let lastIdx := ((cutAt stop (some 0) 0 (indices.map fun i => (weighted.data.get i).p)).map
      (· + 1)).getD indices.length
    return { data := (indices.take lastIdx).map weighted.data.get, sorted := false }

/-- `pos_last` in `llama_sample_xtc_impl`, from the index `i` on. -/
def posLast (threshold : ℚ) : (i last : Nat) → List Num → Nat
  | _, last, [] => last
  | i, last, p :: ps => if Num.le (some threshold) p then posLast threshold (i + 1) i ps else last

/-- `llama_sample_xtc_impl`, with the number that the generator gives. -/
def xtc (candidates : TokenDataArray) (probability threshold chance : ℚ) (minKeep : Nat) :
    Option TokenDataArray :=
  if probability ≤ 0 ∨ 1 / 2 < threshold ∨ candidates.data.length < 2 then some candidates
  else if probability < 1 ∧ probability < chance then some candidates
  else do
    let weighted ← softmax std m candidates true
    let last := posLast threshold 0 0 (weighted.data.map TokenData.p)
    if minKeep ≤ weighted.data.length - last ∧ 0 < last then
      return { weighted with data := weighted.data.drop last }
    else return weighted

def unmasked (data : List TokenData) : List ℚ := data.filterMap fun c => c.logit

/-- `dsigma2` in `llama_sample_top_n_sigma_impl`. -/
def sigmaSquared (logits : List ℚ) : ℚ :=
  let dmean := logits.sum / logits.length
  (logits.map fun l => l * l).sum / logits.length - dmean * dmean

/-- `llama_sample_top_n_sigma_impl`.  The maximum starts at zero. -/
def topNSigma (candidates : TokenDataArray) (n : ℚ) : Option TokenDataArray :=
  if n ≤ 0 ∨ candidates.data.length < 4 then some candidates
  else
    let logits := unmasked candidates.data
    let top := logits.foldl max 0
    if logits.length < 4 then some candidates
    else if sigmaSquared logits ≤ 0 then some candidates
    else
      let thresh := top - n * m.sqrt (sigmaSquared logits)
      let kept := candidates.data.filter fun c => decide ((thresh : Logit) ≤ c.logit)
      if kept.length < candidates.data.length then
        softmax std m { candidates with data := kept } true
      else some { candidates with data := kept }

/-- `llama_sample_temp_impl`. -/
def temperature (candidates : TokenDataArray) (temp : ℚ) : TokenDataArray :=
  { candidates with
    data := candidates.data.map fun c => { c with logit := WithBot.map (· / temp) c.logit } }

def entropyOf (ps : List Num) : ℚ :=
  ps.foldl (fun entropy p =>
    match p with
    | some prob => if 0 < prob then entropy - prob * m.log prob else entropy
    | none => entropy) 0

/-- `dyn_temp` in `llama_sample_entropy_impl`. -/
def dynTemp (weighted : List TokenData) (minTemp maxTemp exponent : ℚ) : ℚ :=
  let maxEntropy := -m.log (1 / weighted.length)
  let normalized := entropyOf m (weighted.map TokenData.p) / maxEntropy
  minTemp + (maxTemp - minTemp) * m.pow normalized exponent

/-- `llama_sample_entropy_impl`. -/
def entropy (candidates : TokenDataArray) (minTemp maxTemp exponent : ℚ) :
    Option TokenDataArray :=
  if candidates.data.length ≤ 1 then some candidates
  else do
    let weighted ← softmax std m candidates true
    let temp := dynTemp m weighted.data minTemp maxTemp exponent
    if temp = 0 then none
    else
      let scaled := temperature weighted temp
      match scaled.data with
      | [] => none
      | first :: _ =>
        let again := scaled.data.map fun c => { c with p := prob m first.logit c.logit }
        let cumSum := Num.sum (again.map TokenData.p)
        return { scaled with data := again.map fun c => { c with p := Num.div c.p cumSum } }

end

end LlamaCpp.Samplers
