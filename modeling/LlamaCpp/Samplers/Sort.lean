import LlamaCpp.Common.ReasoningBudget
import LlamaCpp.Lib.Buckets
import LlamaCpp.Lib.StdSort
import Mathlib.Data.Rat.Floor

/-!
# Sorting the candidates

`llama_sort` puts the `k` candidates of the largest logits in front.  Up to 1024 of them come
from the standard library; for more, the candidates are distributed over 128 buckets of
logits, and only the buckets down to the one that reaches `k` are sorted and copied back.
-/

set_option autoImplicit false

namespace LlamaCpp.Samplers

open LlamaCpp.Lib LlamaCpp.Common List

/-- An exact logit, or `-INFINITY` for a candidate that is masked out. -/
abbrev Logit := WithBot ℚ

abbrev Num := Option ℚ

structure TokenData where
  id : Token
  logit : Logit
  p : Num
deriving DecidableEq

/-- `llama_token_data_array`; `size` is the length of `data`. -/
structure TokenDataArray where
  data : List TokenData
  sorted : Bool

def nbuckets : Nat := 128

def bucketLow : ℚ := -10

def bucketHigh : ℚ := 10

def bucketScale : ℚ := nbuckets / (bucketHigh - bucketLow)

def bucketInter : ℚ := -bucketLow * bucketScale

/-- The conversion `int(x)`, which drops the fraction.  It is undefined in the source for
values that do not fit, and exact here. -/
def truncate (x : ℚ) : Int := if x < 0 then ⌈x⌉ else ⌊x⌋

/-- The bucket of a logit; minus infinity converts to `INT_MIN` and is clamped to 0. -/
def bucketIndex : Logit → Nat
  | none => 0
  | some val =>
    (max 0 (min ((nbuckets : Int) - 1) (truncate (bucketScale * val + bucketInter)))).toNat

/-- `for ( ; ib >= 0; --ib) { nhave += histo[ib]; if (nhave >= k) break; }`, from `ib = left - 1`.
The callers ask for at most `size` candidates, so that the buckets do reach `k`. -/
def reach (histo : List Nat) (k : Nat) : (left nhave : Nat) → Nat × Nat
  | 0, nhave => (0, nhave)
  | ib + 1, nhave =>
    let have' := nhave + histo.getD ib 0
    if k ≤ have' then (ib, have') else reach histo k ib have'

section

variable (std : StdSort)

/-- `comp` of `llama_sort`. -/
def comp : TokenData → TokenData → Bool := descending TokenData.logit

/-- The branch of `llama_sort` that uses the standard library alone. -/
def sortDirect (data : List TokenData) (k : Nat) : List TokenData :=
  if k = data.length then std.sort comp data else std.partialSort comp k data

/-- The sizes of the buckets `left - 1, …, ib`. -/
def sizesDown (histo : List Nat) (left ib : Nat) : List Nat :=
  (List.range (left - ib)).map fun q => histo.getD (left - 1 - q) 0

/-- The place of a candidate's bucket, counted from the highest one; candidates of the buckets
below `ib` are not copied. -/
def placeDown (ib : Nat) (c : TokenData) : Option Nat :=
  let j := bucketIndex c.logit
  if ib ≤ j then some (nbuckets - 1 - j) else none

/-- The branch of `llama_sort` for more than 1024 candidates. -/
def sortBuckets (data : List TokenData) (k : Nat) : List TokenData :=
  let bucketIdx := data.map fun c => bucketIndex c.logit
  let histo := histogram nbuckets bucketIdx
  let (ib, nhave) := reach histo k nbuckets 0
  let sizes := sizesDown histo nbuckets ib
  let tmpTokens := List.replicate nhave { id := 0, logit := (0 : ℚ), p := some 0 }
  let bucketPtrs := offsets 0 sizes
  let filled := (distribute (placeDown ib) { cells := tmpTokens, nexts := bucketPtrs } data).cells
  let (above, ndone) := onRanges (std.sort comp) 0 sizes.dropLast filled
  let chosen := onRange (std.partialSort comp (k - ndone)) ndone (histo.getD ib 0) above
  chosen.take k ++ data.drop k

def llamaSort (candidates : TokenDataArray) (k : Int) : TokenDataArray :=
  if candidates.sorted ∨ candidates.data.length < 2 then candidates
  else
    let n := if k < 0 then candidates.data.length else k.toNat
    { data := if n ≤ 1024 then sortDirect std candidates.data n
              else sortBuckets std candidates.data n
      sorted := true }

end

theorem truncate_mono {x y : ℚ} (le : x ≤ y) : truncate x ≤ truncate y := by
  unfold truncate
  split
  case isTrue negative =>
    split
    case isTrue => exact Int.ceil_le_ceil le
    case isFalse other =>
      have upper : ⌈x⌉ ≤ 0 := Int.ceil_le.mpr (by simpa using negative.le)
      have lower : 0 ≤ ⌊y⌋ := Int.floor_nonneg.mpr (not_lt.mp other)
      omega
  case isFalse other =>
    rw [if_neg fun negative => other (le.trans_lt negative)]
    exact Int.floor_le_floor le

theorem bucketIndex_lt (logit : Logit) : bucketIndex logit < nbuckets := by
  have : (nbuckets : Int) = 128 := rfl
  cases logit with
  | none => exact Nat.zero_lt_succ _
  | some val =>
    simp only [bucketIndex]
    omega

theorem bucketScale_nonneg : 0 ≤ bucketScale := by
  norm_num [bucketScale, nbuckets, bucketHigh, bucketLow]

theorem bucketIndex_mono {a b : Logit} (le : a ≤ b) : bucketIndex a ≤ bucketIndex b := by
  cases a with
  | none => exact Nat.zero_le _
  | some x =>
    cases b with
    | none => exact absurd (le_bot_iff.mp le) (WithBot.coe_ne_bot)
    | some y =>
      have below : x ≤ y := WithBot.coe_le_coe.mp le
      have moved : truncate (bucketScale * x + bucketInter) ≤
          truncate (bucketScale * y + bucketInter) :=
        truncate_mono (add_le_add_left (mul_le_mul_of_nonneg_left below bucketScale_nonneg) _)
      simp only [bucketIndex]
      omega

theorem logit_le_of_bucket {a b : Logit} (higher : bucketIndex b < bucketIndex a) : b ≤ a := by
  rcases le_total b a with le | le
  · exact le
  · exact absurd (bucketIndex_mono le) (by omega)

variable {left k : Nat}

theorem sizesDown_succ (histo : List Nat) {ib : Nat} (le : ib ≤ left) :
    sizesDown histo (left + 1) ib = histo.getD left 0 :: sizesDown histo left ib := by
  have count : left + 1 - ib = (left - ib) + 1 := by omega
  rw [sizesDown, count, range_succ_eq_map, map_cons, map_map]
  congr 1
  refine map_congr_left fun q _ => ?_
  show histo.getD (left + 1 - 1 - (q + 1)) 0 = histo.getD (left - 1 - q) 0
  congr 1
  omega

theorem sizesDown_self (histo : List Nat) (left : Nat) : sizesDown histo left left = [] := by
  simp [sizesDown]

theorem sizesDown_concat (histo : List Nat) {ib : Nat} (lt : ib < left) :
    sizesDown histo left ib = sizesDown histo left (ib + 1) ++ [histo.getD ib 0] := by
  have count : left - ib = (left - (ib + 1)) + 1 := by omega
  have index : left - 1 - (left - (ib + 1)) = ib := by omega
  rw [sizesDown, count, range_succ, map_append, map_singleton, index, sizesDown]

theorem reach_stops {histo : List Nat} {nhave : Nat} (more : nhave < k)
    (enough : k ≤ nhave + (sizesDown histo left 0).sum) :
    ∃ ib < left, reach histo k left nhave = (ib, nhave + (sizesDown histo left ib).sum) ∧
      k ≤ nhave + (sizesDown histo left ib).sum ∧
      nhave + (sizesDown histo left (ib + 1)).sum < k := by
  induction left generalizing nhave with
  | zero =>
    rw [sizesDown_self, sum_nil] at enough
    omega
  | succ left ih =>
    by_cases reached : k ≤ nhave + histo.getD left 0
    · refine ⟨left, left.lt_succ_self, ?_, ?_, ?_⟩
      · rw [reach, if_pos reached, sizesDown_succ histo le_rfl, sizesDown_self]
        rfl
      · simpa [sizesDown_succ histo le_rfl, sizesDown_self] using reached
      · simpa [sizesDown_self] using more
    · rw [sizesDown_succ histo (Nat.zero_le _), sum_cons, ← Nat.add_assoc] at enough
      obtain ⟨ib, below, stops, has, missing⟩ := ih (by omega) enough
      refine ⟨ib, by omega, ?_, ?_, ?_⟩
      · rw [reach, if_neg reached, stops, sizesDown_succ histo (by omega), sum_cons,
          Nat.add_assoc]
      · rw [sizesDown_succ histo (by omega), sum_cons, ← Nat.add_assoc]
        exact has
      · rw [sizesDown_succ histo (by omega), sum_cons, ← Nat.add_assoc]
        exact missing

section

variable {data : List TokenData} {ib : Nat}

variable {q : Nat}

theorem placeDown_eq_some {c : TokenData} : placeDown ib c = some q ↔
      ib ≤ bucketIndex c.logit ∧ nbuckets - 1 - bucketIndex c.logit = q := by
  rw [placeDown]
  simp_all

theorem histo_getD (data : List TokenData) {j : Nat} (below : j < nbuckets) :
    (histogram nbuckets (data.map fun c => bucketIndex c.logit)).getD j 0 =
      (data.filter fun c => decide (bucketIndex c.logit = j)).length := by
  rw [getD_eq_getElem?_getD, histogram_getElem? below, List.count,
    countP_map, countP_eq_length_filter]
  rfl

theorem sizesDown_eq (data : List TokenData) (below : ib < nbuckets) :
    sizesDown (histogram nbuckets (data.map fun c => bucketIndex c.logit)) nbuckets ib =
      (List.range (nbuckets - ib)).map fun q => (inBucket (placeDown ib) data q).length := by
  refine map_congr_left fun q member => ?_
  rw [mem_range] at member
  rw [histo_getD data (by omega)]
  congr 1
  refine filter_congr fun c _ => ?_
  have bound := bucketIndex_lt c.logit
  rw [decide_eq_decide, placeDown_eq_some]
  omega

theorem buckets_perm_filter (data : List TokenData) (ib : Nat) :
    ((List.range (nbuckets - ib)).flatMap (inBucket (placeDown ib) data)).Perm
      (data.filter fun c => decide (ib ≤ bucketIndex c.logit)) := by
  refine (buckets_perm (placeDown ib) data (nbuckets - ib)).trans (List.Perm.of_eq ?_)
  refine filter_congr fun c _ => ?_
  have bound := bucketIndex_lt c.logit
  rw [placeDown]
  split
  case isTrue within =>
    simp only [Option.any_some, within, decide_true, decide_eq_true_eq]
    omega
  case isFalse outside => simp [outside]

theorem sizesDown_sum (data : List TokenData) (below : ib < nbuckets) :
    (sizesDown (histogram nbuckets (data.map fun c => bucketIndex c.logit)) nbuckets ib).sum =
      (data.filter fun c => decide (ib ≤ bucketIndex c.logit)).length := by
  rw [sizesDown_eq data below, ← (buckets_perm_filter data ib).length_eq, length_flatMap]

/-- The buckets above `ib`, from the highest one down. -/
def bucketsAbove (ib : Nat) (data : List TokenData) : List (List TokenData) :=
  (List.range (nbuckets - 1 - ib)).map (inBucket (placeDown ib) data)

def bucketAt (ib : Nat) (data : List TokenData) : List TokenData :=
  inBucket (placeDown ib) data (nbuckets - 1 - ib)

theorem flatMap_inBucket (data : List TokenData) (below : ib < nbuckets) :
    (List.range (nbuckets - ib)).flatMap (inBucket (placeDown ib) data) =
      (bucketsAbove ib data).flatten ++ bucketAt ib data := by
  have count : nbuckets - ib = (nbuckets - 1 - ib) + 1 := by omega
  rw [count, range_succ, flatMap_append, flatMap_singleton]
  rfl

theorem sizesDown_split (data : List TokenData) (below : ib < nbuckets) :
    sizesDown (histogram nbuckets (data.map fun c => bucketIndex c.logit)) nbuckets (ib + 1) =
        (bucketsAbove ib data).map List.length ∧
      (histogram nbuckets (data.map fun c => bucketIndex c.logit)).getD ib 0 =
        (bucketAt ib data).length := by
  have sizes := sizesDown_eq data below
  have count : nbuckets - ib = (nbuckets - 1 - ib) + 1 := by omega
  rw [sizesDown_concat _ below, count, range_succ, map_append] at sizes
  obtain ⟨upper, last⟩ := append_inj' sizes rfl
  refine ⟨?_, singleton_inj.mp last⟩
  rw [upper, bucketsAbove, map_map]
  rfl

/-- The candidates as they lie in `tmp_tokens` before any bucket is sorted. -/
theorem distribute_data (data : List TokenData) (below : ib < nbuckets) {cells : List TokenData}
    (enough : cells.length = (sizesDown (histogram nbuckets
      (data.map fun c => bucketIndex c.logit)) nbuckets ib).sum) :
    (distribute (placeDown ib) { cells := cells, nexts := offsets 0 (sizesDown (histogram nbuckets
        (data.map fun c => bucketIndex c.logit)) nbuckets ib) } data).cells =
      (bucketsAbove ib data).flatten ++ bucketAt ib data := by
  have sizes := sizesDown_eq data below
  rw [distribute_cells enough, sizes, length_map, length_range,
    flatMap_inBucket data below]
  · intro c _ q place
    have := placeDown_eq_some.mp place
    rw [sizes, length_map, length_range]
    omega
  · intro q size found
    rw [sizes, List.getElem?_map] at found
    cases at_ : (List.range (nbuckets - ib))[q]? with
    | none => simp [at_] at found
    | some r =>
      have same : r = q := by
        rw [List.getElem?_eq_some_iff] at at_
        obtain ⟨_, value⟩ := at_
        simpa using value.symm
      rw [at_, Option.map_some, Option.some.injEq] at found
      rw [← found, same]

theorem mem_inBucket {c : TokenData} (member : c ∈ inBucket (placeDown ib) data q) :
    bucketIndex c.logit = nbuckets - 1 - q ∧ q < nbuckets - ib := by
  have place := of_decide_eq_true (mem_filter.mp member).2
  have bound := bucketIndex_lt c.logit
  have := placeDown_eq_some.mp place
  omega

theorem inBucket_falling {a b : TokenData} {r : Nat} (lt : q < r)
    (upper : a ∈ inBucket (placeDown ib) data q) (lower : b ∈ inBucket (placeDown ib) data r) :
    b.logit ≤ a.logit := by
  have first := mem_inBucket upper
  have second := mem_inBucket lower
  exact logit_le_of_bucket (by omega)

end

theorem sortBuckets_eq (std : StdSort) {data : List TokenData} (positive : 0 < k)
    (inside : k ≤ data.length) : ∃ ib < nbuckets, (bucketsAbove ib data).flatten.length < k ∧
      k ≤ (bucketsAbove ib data).flatten.length + (bucketAt ib data).length ∧
      sortBuckets std data k =
        (((bucketsAbove ib data).map (std.sort comp)).flatten ++
          std.partialSort comp (k - (bucketsAbove ib data).flatten.length)
            (bucketAt ib data)).take k ++ data.drop k := by
  have whole : (data.filter fun c => decide (0 ≤ bucketIndex c.logit)) = data := by simp
  have total := sizesDown_sum data (Nat.zero_lt_succ 127)
  rw [whole] at total
  obtain ⟨ib, below, stops, has, missing⟩ :=
    reach_stops positive (by rw [zero_add, total]; exact inside)
  rw [zero_add] at stops has missing
  obtain ⟨upper, lastSize⟩ := sizesDown_split data below
  have done : (sizesDown (histogram nbuckets (data.map fun c => bucketIndex c.logit)) nbuckets
      (ib + 1)).sum = (bucketsAbove ib data).flatten.length := by
    rw [upper, length_flatten]
  rw [done] at missing
  refine ⟨ib, below, missing, ?_, ?_⟩
  · rwa [sizesDown_concat _ below, sum_append, done, lastSize] at has
  · have keeps : ∀ range : List TokenData, (std.sort comp range).length = range.length :=
      fun range => (std.sort_perm (descending_weak _) range).length_eq
    have sortedLength : ((bucketsAbove ib data).map (std.sort comp)).flatten.length =
        (bucketsAbove ib data).flatten.length := by
      simp [keeps, Function.comp_def]
    have above := onRanges_eq keeps [] (bucketsAbove ib data) (bucketAt ib data)
    have middle := onRange_middle (std.partialSort comp (k - (bucketsAbove ib data).flatten.length))
      ((bucketsAbove ib data).map (std.sort comp)).flatten (bucketAt ib data) []
    rw [sortedLength] at middle
    simp only [nil_append, length_nil, zero_add] at above
    simp only [append_nil] at middle
    simp only [sortBuckets, stops, distribute_data data below length_replicate]
    rw [sizesDown_concat _ below, dropLast_concat, upper, lastSize, above]
    simp only [middle]

theorem buckets_topmost (std : StdSort) (data : List TokenData) {ib : Nat} (below : ib < nbuckets)
    (enough : k ≤ (bucketAt ib data).length) : ∃ left, Topmost TokenData.logit data
      (((bucketsAbove ib data).map (std.sort comp)).flatten ++
        (std.partialSort comp k (bucketAt ib data)).take k) left := by
  have falling : (bucketsAbove ib data).Pairwise fun upper lower =>
      ∀ a ∈ upper, ∀ b ∈ lower, b.logit ≤ a.logit := by
    rw [bucketsAbove, pairwise_map]
    exact pairwise_lt_range.imp fun lt a inUpper b inLower =>
      inBucket_falling lt inUpper inLower
  have higher : ∀ range ∈ bucketsAbove ib data, ∀ a ∈ range, ∀ b ∈ bucketAt ib data,
      b.logit ≤ a.logit := by
    intro range isRange a inRange b inLast
    obtain ⟨q, inside, rfl⟩ := mem_map.mp isRange
    exact inBucket_falling (mem_range.mp inside) inRange inLast
  have chosen := Topmost.sorted_ranges std falling
    (Topmost.of_partialSort std TokenData.logit enough) higher
  have copied := buckets_perm_filter data ib
  rw [flatMap_inBucket data below] at copied
  have lower : ∀ a ∈ (bucketsAbove ib data).flatten ++ bucketAt ib data,
      ∀ b ∈ data.filter (fun c => !decide (ib ≤ bucketIndex c.logit)), b.logit ≤ a.logit := by
    intro a inBuckets b other
    have first := (mem_filter.mp (copied.mem_iff.mp inBuckets)).2
    have second := (mem_filter.mp other).2
    simp only [decide_eq_true_eq, Bool.not_eq_true', decide_eq_false_iff_not] at first second
    exact logit_le_of_bucket (by omega)
  refine ⟨_, (chosen.leave lower).of_perm ?_⟩
  exact (copied.append_right _).trans (filter_append_perm _ data)

theorem sortBuckets_topmost (std : StdSort) {data : List TokenData} (positive : 0 < k)
    (inside : k ≤ data.length) : (sortBuckets std data k).length = data.length ∧
      ∃ left, Topmost TokenData.logit data ((sortBuckets std data k).take k) left := by
  obtain ⟨ib, below, done, has, result⟩ := sortBuckets_eq std positive inside
  have enough : k - (bucketsAbove ib data).flatten.length ≤ (bucketAt ib data).length := by
    omega
  have sortedLength : ((bucketsAbove ib data).map (std.sort comp)).flatten.length =
      (bucketsAbove ib data).flatten.length := by
    have keeps : ∀ range : List TokenData, (std.sort comp range).length = range.length :=
      fun range => (std.sort_perm (descending_weak _) range).length_eq
    simp [keeps, Function.comp_def]
  have lastLength : (std.partialSort comp (k - (bucketsAbove ib data).flatten.length)
      (bucketAt ib data)).length = (bucketAt ib data).length :=
    (std.partialSort_perm (descending_weak _) enough).length_eq
  have front : (((bucketsAbove ib data).map (std.sort comp)).flatten ++
      std.partialSort comp (k - (bucketsAbove ib data).flatten.length)
        (bucketAt ib data)).take k =
      ((bucketsAbove ib data).map (std.sort comp)).flatten ++
        (std.partialSort comp (k - (bucketsAbove ib data).flatten.length)
          (bucketAt ib data)).take (k - (bucketsAbove ib data).flatten.length) := by
    rw [take_append, sortedLength, take_of_length_le (by omega)]
  obtain ⟨left, chosen⟩ := buckets_topmost std data below enough
  rw [front] at result
  have size : (((bucketsAbove ib data).map (std.sort comp)).flatten ++
      (std.partialSort comp (k - (bucketsAbove ib data).flatten.length)
        (bucketAt ib data)).take (k - (bucketsAbove ib data).flatten.length)).length = k := by
    rw [length_append, length_take]
    omega
  rw [result]
  constructor
  · rw [length_append, length_drop]
    omega
  · exact ⟨left, by rwa [take_left' size]⟩

theorem sortDirect_topmost (std : StdSort) {data : List TokenData} (inside : k ≤ data.length) :
    (sortDirect std data k).length = data.length ∧
      ∃ left, Topmost TokenData.logit data ((sortDirect std data k).take k) left := by
  have weak := descending_weak TokenData.logit
  unfold sortDirect
  split
  case isTrue all =>
    have size := (std.sort_perm weak data).length_eq
    refine ⟨size, [], ?_⟩
    rw [take_of_length_le (by rw [comp, size, all])]
    exact Topmost.of_sort std TokenData.logit data
  case isFalse =>
    exact ⟨(std.partialSort_perm weak inside).length_eq, _,
      Topmost.of_partialSort std TokenData.logit inside⟩

/-- How many candidates `llama_sort` is asked for. -/
def wanted (candidates : TokenDataArray) (k : Int) : Nat :=
  if k < 0 then candidates.data.length else k.toNat

theorem llamaSort_topmost (std : StdSort) {candidates : TokenDataArray} {k : Int}
    (unsorted : candidates.sorted = false) (inside : k ≤ candidates.data.length) :
    (llamaSort std candidates k).data.length = candidates.data.length ∧
      ∃ left, Topmost TokenData.logit candidates.data
        ((llamaSort std candidates k).data.take (wanted candidates k)) left := by
  have within : wanted candidates k ≤ candidates.data.length := by
    unfold wanted
    split <;> omega
  by_cases small : candidates.data.length < 2
  · rw [llamaSort, if_pos (Or.inr small)]
    refine ⟨rfl, candidates.data.drop (wanted candidates k), ?_⟩
    rw [Topmost]
    cases shape : candidates.data with
    | nil => simp
    | cons c rest =>
      rw [shape, length_cons] at small
      have alone : rest = [] := length_eq_zero_iff.mp (by omega)
      subst alone
      cases wanted candidates k <;> simp
  · have large : ¬(candidates.sorted ∨ candidates.data.length < 2) := by simp [unsorted, small]
    rw [llamaSort, if_neg large]
    show (if wanted candidates k ≤ 1024 then _ else _ : List TokenData).length = _ ∧
      ∃ left, Topmost _ _ ((if wanted candidates k ≤ 1024 then _ else _ : List TokenData).take _) _
    split
    case isTrue => exact sortDirect_topmost std within
    case isFalse many =>
      have positive : 0 < wanted candidates k := by omega
      exact sortBuckets_topmost std positive within

/-- On an array that is not flagged as sorted, `llama_sort` puts topmost candidates in front,
in descending order.  Their logits are the first ones of the full descending order, so both
branches select the same, and asked for all candidates it only reorders the array. -/
theorem llamaSort_selects (std : StdSort) (candidates : TokenDataArray) (k : Int)
    (unsorted : candidates.sorted = false) (lower : -1 ≤ k)
    (upper : k ≤ candidates.data.length) :
    let result := (llamaSort std candidates k).data
    let n := if k = -1 then candidates.data.length else k.toNat
    (∃ left, (result.take n ++ left).Perm candidates.data ∧ (result.take n).length = n ∧
        (result.take n).Pairwise (fun a b => b.logit ≤ a.logit) ∧
        ∀ a ∈ result.take n, ∀ b ∈ left, b.logit ≤ a.logit) ∧
      (result.take n).map TokenData.logit =
        (mergeOrder (descending id) (candidates.data.map TokenData.logit)).take n ∧
      (1024 < n → ((sortBuckets std candidates.data n).take n).map TokenData.logit =
        ((sortDirect std candidates.data n).take n).map TokenData.logit) ∧
      (n = candidates.data.length → result.Perm candidates.data) := by
  intro result n
  have count : wanted candidates k = n := by
    simp only [wanted, n]
    split <;> split <;> omega
  have within : n ≤ candidates.data.length := by
    rw [← count, wanted]
    split <;> omega
  obtain ⟨size, left, chosen⟩ := llamaSort_topmost std unsorted upper
  rw [count] at chosen
  have taken : (result.take n).length = n := length_take_of_le (by rw [size]; exact within)
  refine ⟨⟨left, chosen.1, taken, chosen.2⟩, ?_, ?_, ?_⟩
  · rw [chosen.values, taken]
  · intro many
    obtain ⟨bucketSize, _, fromBuckets⟩ :=
      sortBuckets_topmost std (Nat.zero_lt_of_lt many) within
    obtain ⟨directSize, _, fromDirect⟩ := sortDirect_topmost std within
    rw [fromBuckets.values, fromDirect.values, length_take, length_take, bucketSize,
      directSize]
  · intro all
    have whole : result.take n = result := take_of_length_le (by rw [size, all])
    have none : left = [] := by
      have total := chosen.1.length_eq
      rw [length_append, taken] at total
      exact length_eq_zero_iff.mp (by omega)
    have perm := chosen.1
    rwa [none, append_nil, whole] at perm

def threeCandidates : TokenDataArray where
  data := [{ id := 0, logit := ((-3 : ℚ) : Logit), p := some 0 }, { id := 1, logit := none, p := some 0 },
    { id := 2, logit := ((5 : ℚ) : Logit), p := some 0 }]
  sorted := false

theorem llamaSort_selects_three :
    (llamaSort StdSort.merge threeCandidates 3).data.Perm threeCandidates.data :=
  (llamaSort_selects StdSort.merge threeCandidates 3 rfl (by decide) (by decide)).2.2.2 rfl

end LlamaCpp.Samplers
