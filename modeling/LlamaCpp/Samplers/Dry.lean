import LlamaCpp.Lib.Assoc
import LlamaCpp.Lib.RingBuffer
import LlamaCpp.Lib.SelfMatch
import LlamaCpp.Samplers.Sort

/-!
# The DRY sampler

`llama_sampler_dry_apply` looks for the end of the context elsewhere in its last tokens and
penalizes the tokens that would continue a repetition.  The lengths come from a Z-algorithm
over the tokens in reverse, cut off at the last sequence breaker while it runs.
-/

set_option autoImplicit false

namespace LlamaCpp.Samplers

open LlamaCpp.Lib LlamaCpp.Common

/-- `llama_sampler_dry`.  A breaker is its first token with the list of the others. -/
structure Dry where
  totalContextSize : Nat
  dryMultiplier : ℚ
  dryBase : ℚ
  dryAllowedLength : Int
  dryPenaltyLastN : Int
  dryProcessedBreakers : List (Token × List Token)
  dryRepeatCount : List Nat
  dryMaxTokenRepeat : List (Token × Nat)
  lastTokens : RingBuffer Token

namespace Dry

def effectiveDryPenaltyLastN (smpl : Dry) : Nat :=
  if smpl.dryPenaltyLastN = -1 then smpl.totalContextSize else (max smpl.dryPenaltyLastN 0).toNat

def lastNRepeat (smpl : Dry) : Nat :=
  min (min smpl.lastTokens.sz smpl.effectiveDryPenaltyLastN) smpl.totalContextSize

/-- `equal_range` on the breakers, whose order does not matter. -/
def equalRange (smpl : Dry) (token : Token) : List (List Token) :=
  (smpl.dryProcessedBreakers.filter fun breaker => decide (breaker.1 = token)).map Prod.snd

/-- The rest of a breaker follows the token `i` places before the last one. -/
def tailMatches (smpl : Dry) (i : Nat) (tail : List Token) : Bool :=
  tail.zipIdx.all fun entry => decide (smpl.lastTokens.rat (i - entry.2 - 1) = some entry.1)

def longestMatch (smpl : Dry) (i : Nat) (tails : List (List Token)) : Int :=
  tails.foldl (fun longest tail =>
    if longest < tail.length ∧ tail.length ≤ i ∧ smpl.tailMatches i tail then tail.length
    else longest) (-1)

/-- The loop of step 1 from the index `i` on. -/
def repLimitFrom (smpl : Dry) (n : Nat) : (left i : Nat) → Nat
  | 0, _ => n
  | left + 1, i =>
    match smpl.lastTokens.rat i with
    | none => n
    | some token =>
      let longest := smpl.longestMatch i (smpl.equalRange token)
      if 0 ≤ longest then i - longest.toNat else repLimitFrom smpl n left (i + 1)

def repLimit (smpl : Dry) : Nat := smpl.repLimitFrom smpl.lastNRepeat smpl.lastNRepeat 0

end Dry

structure ZState where
  counts : List Nat
  lt : Nat
  rt : Nat

/-- `while (i < last_n_repeat && rat(i) == rat(i - k)) i += 1;` -/
def scanUp (rat : Nat → Option Token) (n k : Nat) : (fuel i : Nat) → Nat
  | 0, i => i
  | fuel + 1, i => if i < n ∧ rat i = rat (i - k) then scanUp rat n k fuel (i + 1) else i

def zStep (rat : Nat → Option Token) (n limit : Nat) (st : ZState) (k : Nat) : ZState :=
  let last := n - 1
  if st.rt < k then
    let len := extend rat n k n 0
    let counts := st.counts.set (last - k) (min len limit)
    if 0 < len then { counts := counts, lt := k, rt := k + len - 1 }
    else { st with counts := counts }
  else
    let p := k - st.lt
    let rightPartLen := st.rt - k + 1
    if st.counts.getD (last - p) 0 < rightPartLen then
      { st with counts := st.counts.set (last - k) (min (st.counts.getD (last - p) 0) limit) }
    else
      let i := scanUp rat n k n (st.rt + 1)
      { counts := st.counts.set (last - k) (min (i - k) limit), lt := k, rt := i - 1 }

def repeatCounts (rat : Nat → Option Token) (n limit : Nat) : List Nat :=
  ((List.range' 1 (n - 1)).foldl (zStep rat n limit)
    { counts := List.replicate n 0, lt := 0, rt := 0 }).counts

def recordRepeat (rat : Nat → Option Token) (n : Nat) (allowed : Int) (counts : List Nat)
    (table : List (Token × Nat)) (i : Nat) : List (Token × Nat) :=
  let repeatLen := counts.getD i 0
  if allowed ≤ repeatLen then
    match rat (n - 2 - i) with
    | none => table
    | some token =>
      match table.lookup token with
      | none => assign token repeatLen table
      | some old => if old < repeatLen then assign token repeatLen table else table
  else table

def maxTokenRepeat (rat : Nat → Option Token) (n : Nat) (allowed : Int) (counts : List Nat) :
    List (Token × Nat) :=
  (List.range (n - 1)).foldl (recordRepeat rat n allowed counts) []

namespace Dry

def floatMaxLog : ℚ := 887228391 / 10000000

/-- `max_exponent`, with the logarithm of the base. -/
def maxExponent (log : ℚ → ℚ) (smpl : Dry) : Int :=
  if 1000001 / 1000000 < smpl.dryBase then truncate (floatMaxLog / log smpl.dryBase) else 0

def penalize (log : ℚ → ℚ) (smpl : Dry) (c : TokenData) : TokenData :=
  match smpl.dryMaxTokenRepeat.lookup c.id with
  | none => c
  | some len =>
    if (smpl.equalRange c.id).any List.isEmpty then c
    else
      let repeatExp := (len : Int) - smpl.dryAllowedLength
      let clamped := if 0 < smpl.maxExponent log ∧ smpl.maxExponent log < repeatExp
        then smpl.maxExponent log else repeatExp
      let penalty := smpl.dryMultiplier * smpl.dryBase ^ clamped
      { c with logit := WithBot.map (fun l => l - penalty) c.logit }

/-- `llama_sampler_dry_accept`; none where the ring buffer throws. -/
def accept (smpl : Dry) (token : Token) : Option Dry :=
  if smpl.dryMultiplier = 0 ∨ smpl.dryBase < 1 ∨ smpl.dryPenaltyLastN = 0 then some smpl
  else (smpl.lastTokens.pushBack token).map fun pushed => { smpl with lastTokens := pushed }

/-- `llama_sampler_dry_reset`. -/
def reset (smpl : Dry) : Dry :=
  { smpl with lastTokens := smpl.lastTokens.clear, dryRepeatCount := [], dryMaxTokenRepeat := [] }

/-- `llama_sampler_dry_apply`. -/
def apply (log : ℚ → ℚ) (smpl : Dry) (cur : TokenDataArray) : Dry × TokenDataArray :=
  if smpl.dryMultiplier = 0 ∨ smpl.dryBase < 1 ∨ smpl.dryPenaltyLastN = 0 then (smpl, cur)
  else
    let n := smpl.lastNRepeat
    if n ≤ smpl.dryAllowedLength then (smpl, cur)
    else
      let cleared := { smpl with dryRepeatCount := List.replicate n 0, dryMaxTokenRepeat := [] }
      if smpl.repLimit < smpl.dryAllowedLength then (cleared, cur)
      else
        let counts := repeatCounts smpl.lastTokens.rat n smpl.repLimit
        let table := maxTokenRepeat smpl.lastTokens.rat n smpl.dryAllowedLength counts
        let counted := { cleared with dryRepeatCount := counts, dryMaxTokenRepeat := table }
        (counted, { data := cur.data.map (counted.penalize log), sorted := false })

end Dry

end LlamaCpp.Samplers
