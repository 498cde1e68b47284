import LlamaCpp.Samplers.Queue
import Mathlib.Data.List.FinRange

/-!
# Runs of the sampler queue

Every filter leaves some of the candidates it got, and all but two keep one of the largest
logit; the one exception is `top_n_sigma`, whose maximum starts at zero.  A run of the queue
in any order does so at every step exactly when no step meets that exception, or divides by
a temperature of zero.
-/

set_option autoImplicit false

namespace LlamaCpp.Samplers

open LlamaCpp.Lib LlamaCpp.Common List

def Descending (data : List TokenData) : Prop := data.Pairwise fun a b => b.logit ≤ a.logit

/-- There are candidates, in descending order if they are flagged as sorted. -/
structure Usable (candidates : TokenDataArray) : Prop where
  some_ : candidates.data ≠ []
  ordered : candidates.sorted = true → Descending candidates.data

def key (c : TokenData) : Token × Logit := (c.id, c.logit)

def SubArray (before after : List TokenData) : Prop :=
  after ≠ [] ∧ (after.map key).Subperm (before.map key)

def HasTop (before after : List TokenData) : Prop :=
  ∃ c ∈ after, ∀ b ∈ before, b.logit ≤ c.logit

/-- What a filter makes of its input; `top` says whether it keeps a largest logit. -/
def Filtered (top : Bool) (before : TokenDataArray) (result : Option TokenDataArray) : Prop :=
  ∃ after, result = some after ∧ (after.sorted = true → Descending after.data) ∧
    SubArray before.data after.data ∧ (top = true → HasTop before.data after.data)

section

variable {std : StdSort} {m : CMath} {candidates : TokenDataArray}

theorem logit_of_keys {xs ys : List TokenData} (same : (xs.map key).Perm (ys.map key))
    {c : TokenData} (member : c ∈ xs) : ∃ d ∈ ys, d.logit = c.logit := by
  obtain ⟨d, inYs, keys⟩ := mem_map.mp (same.mem_iff.mp (mem_map_of_mem member))
  exact ⟨d, inYs, congrArg Prod.snd keys⟩

theorem llamaSort_all (std : StdSort) (usable : Usable candidates) :
    (llamaSort std candidates (-1)).data.Perm candidates.data ∧
      Descending (llamaSort std candidates (-1)).data := by
  cases flag : candidates.sorted with
  | true =>
    rw [llamaSort, if_pos (Or.inl flag)]
    exact ⟨List.Perm.refl _, usable.ordered flag⟩
  | false =>
    obtain ⟨size, left, perm, sorted, -⟩ := llamaSort_topmost std (k := -1) flag (by omega)
    have all : wanted candidates (-1) = candidates.data.length := rfl
    rw [all, ← size, take_length] at perm sorted
    have none : left = [] := by
      have total := perm.length_eq
      rw [length_append] at total
      exact length_eq_zero_iff.mp (by omega)
    rw [none, append_nil] at perm
    exact ⟨perm, sorted⟩

variable {data : List TokenData} {ps : List Num} {sampler : SamplerType}

theorem descending_map {g : TokenData → TokenData} (same : ∀ c, key (g c) = key c)
    (sorted : Descending data) : Descending (data.map g) := by
  have logit : ∀ c, (g c).logit = c.logit := fun c => congrArg Prod.snd (same c)
  unfold Descending at sorted ⊢
  rw [pairwise_map]
  simpa only [logit] using sorted

/-- `softmax` sorts the candidates and rewrites their probabilities. -/
theorem softmax_eq (std : StdSort) (m : CMath) (normalize : Bool)
    (some_ : (llamaSort std candidates (-1)).data ≠ []) :
    ∃ g : TokenData → TokenData, (∀ c, key (g c) = key c) ∧
      softmax std m candidates normalize =
        some { data := (llamaSort std candidates (-1)).data.map g
               sorted := (llamaSort std candidates (-1)).sorted } := by
  obtain ⟨first, rest, shape⟩ := exists_cons_of_ne_nil some_
  simp only [softmax, shape]
  cases normalize with
  | true =>
    simp only [map_map]
    refine ⟨_, ?_, rfl⟩
    exact fun c => rfl
  | false =>
    simp only [Bool.false_eq_true, if_false]
    refine ⟨_, ?_, rfl⟩
    exact fun c => rfl

theorem softmax_usable (std : StdSort) (m : CMath) (usable : Usable candidates)
    (normalize : Bool) :
    ∃ weighted, softmax std m candidates normalize = some weighted ∧
      (weighted.data.map key).Perm (candidates.data.map key) ∧
      Descending weighted.data ∧ weighted.data ≠ [] := by
  obtain ⟨perm, sorted⟩ := llamaSort_all std usable
  have some_ : (llamaSort std candidates (-1)).data ≠ [] := by
    intro none
    rw [none] at perm
    exact usable.some_ perm.nil_eq.symm
  obtain ⟨g, same, weighted⟩ := softmax_eq std m normalize some_
  refine ⟨_, weighted, ?_, descending_map same sorted, by simpa using some_⟩
  have keys : key ∘ g = key := funext same
  rw [map_map, keys]
  exact perm.map key

theorem subArray_of_sublist {sorted after : List TokenData}
    (perm : (sorted.map key).Perm (candidates.data.map key)) (part : after.Sublist sorted)
    (some_ : after ≠ []) : SubArray candidates.data after :=
  ⟨some_, (part.map key).subperm.trans perm.subperm⟩

theorem filtered_take {sorted : TokenDataArray} {count : Nat} (positive : 0 < count)
    (perm : (sorted.data.map key).Perm (candidates.data.map key))
    (order : Descending sorted.data) (some_ : sorted.data ≠ []) :
    Filtered true candidates (some { sorted with data := sorted.data.take count }) := by
  obtain ⟨first, rest, shape⟩ := exists_cons_of_ne_nil some_
  obtain ⟨count, rfl⟩ : ∃ c, count = c + 1 := ⟨count - 1, by omega⟩
  refine ⟨_, rfl, fun _ => order.take, ?_, fun _ => ?_⟩
  · refine subArray_of_sublist perm (take_sublist _ _) ?_
    simp [shape]
  · refine ⟨first, by simp [shape], ?_⟩
    intro b member
    obtain ⟨d, inSorted, same⟩ := logit_of_keys perm.symm member
    rw [shape] at inSorted order
    rw [← same]
    rcases mem_cons.mp inSorted with rfl | inRest
    · exact le_rfl
    · exact (pairwise_cons.mp order).1 d inRest

theorem Filtered.unchanged (top : Bool) (usable : Usable candidates) :
    Filtered top candidates (some candidates) := by
  refine ⟨candidates, rfl, usable.ordered, ⟨usable.some_, List.Subperm.refl _⟩, fun _ => ?_⟩
  obtain ⟨c, member, largest⟩ := maxLogit_attained usable.some_
  exact ⟨c, member, fun b inData => (logit_le_maxLogit inData).trans largest.ge⟩

theorem topK_filtered (std : StdSort) (usable : Usable candidates) (k : Int) {minKeep : Nat}
    (keeps : 1 ≤ minKeep) : Filtered true candidates (some (topK std candidates k minKeep)) := by
  have some_ := length_pos_iff.mpr usable.some_
  obtain ⟨count, size, positive, inside⟩ : ∃ count : Nat,
      min (max (if k ≤ 0 then (candidates.data.length : Int) else k) minKeep)
        candidates.data.length = count ∧ 0 < count ∧ count ≤ candidates.data.length := by
    refine ⟨(min (max (if k ≤ 0 then (candidates.data.length : Int) else k) minKeep)
      candidates.data.length).toNat, ?_, ?_, ?_⟩ <;> omega
  simp only [topK, size]
  cases flag : candidates.sorted with
  | true =>
    have same : llamaSort std candidates count = candidates := if_pos (Or.inl flag)
    rw [same]
    exact filtered_take positive (List.Perm.refl _) (usable.ordered flag) usable.some_
  | false =>
    obtain ⟨length, left, perm, order, above⟩ :=
      llamaSort_topmost std (k := (count : Int)) flag (by exact_mod_cast inside)
    have all : wanted candidates count = count := by
      rw [wanted, if_neg (by omega), Int.toNat_natCast]
    rw [all] at perm order above
    have kept : ((llamaSort std candidates count).data.take count) ≠ [] := by
      rw [← length_pos_iff, length_take]
      omega
    obtain ⟨first, rest, shape⟩ := exists_cons_of_ne_nil kept
    refine ⟨_, rfl, fun _ => order, ⟨kept, ?_⟩, fun _ => ⟨first, by simp [shape], ?_⟩⟩
    · exact ((sublist_append_left _ left).map key).subperm.trans (perm.map key).subperm
    · intro b member
      rw [shape] at order above perm
      rcases mem_append.mp (perm.mem_iff.mpr member) with inKept | inLeft
      · rcases mem_cons.mp inKept with rfl | inRest
        · exact le_rfl
        · exact (pairwise_cons.mp order).1 b inRest
      · exact above first mem_cons_self b inLeft

theorem cutAt_stops {stop : Num → Nat → Bool} {cumSum : Num} {i j : Nat}
    (found : cutAt stop cumSum i ps = some j) : ∃ cumSum', stop cumSum' j = true := by
  induction ps generalizing cumSum i with
  | nil => simp [cutAt] at found
  | cons p ps ih =>
    rw [cutAt] at found
    split at found
    case isTrue stops =>
      rw [Option.some.injEq] at found
      exact ⟨_, found ▸ stops⟩
    case isFalse => exact ih found

theorem topP_filtered (std : StdSort) (m : CMath) (usable : Usable candidates) (p : ℚ)
    (minKeep : Nat) : Filtered true candidates (topP std m candidates p minKeep) := by
  unfold topP
  split
  case isTrue => exact Filtered.unchanged true usable
  case isFalse =>
    obtain ⟨weighted, success, perm, order, some_⟩ := softmax_usable std m usable true
    rw [success, Option.bind_eq_bind]
    refine filtered_take ?_ perm order some_
    cases cutAt _ _ _ _ with
    | none => exact length_pos_iff.mpr some_
    | some i => exact Nat.succ_pos i

theorem le_minPEnd (minLogit : Logit) (minKeep i : Nat) (rest : List TokenData) :
    i ≤ minPEnd minLogit minKeep i rest := by
  induction rest generalizing i with
  | nil => exact le_rfl
  | cons c rest ih =>
    rw [minPEnd]
    split
    · exact le_rfl
    · exact (Nat.le_succ i).trans (ih (i + 1))

theorem minPSorted_filtered (std : StdSort) (m : CMath) (usable : Usable candidates) (p : ℚ)
    (minKeep : Nat) : Filtered true candidates (some (minPSorted std m candidates p minKeep)) := by
  obtain ⟨perm, order⟩ := llamaSort_all std usable
  have some_ : (llamaSort std candidates (-1)).data ≠ [] := by
    intro none
    rw [none] at perm
    exact usable.some_ perm.nil_eq.symm
  obtain ⟨first, rest, shape⟩ := exists_cons_of_ne_nil some_
  simp only [minPSorted, shape]
  rw [← shape]
  exact filtered_take (le_minPEnd _ _ 1 rest) (perm.map key) order some_

theorem minP_filtered (std : StdSort) (m : CMath) (usable : Usable candidates) (p : ℚ)
    {minKeep : Nat} (keeps : 1 ≤ minKeep) :
    Filtered true candidates (some (minP std m candidates p minKeep)) := by
  unfold minP
  split
  case isTrue => exact Filtered.unchanged true usable
  case isFalse =>
    split
    case isTrue => exact minPSorted_filtered std m usable p minKeep
    case isFalse unsorted =>
      dsimp only
      split
      case isTrue enough =>
        have kept := length_pos_iff.mp (lt_of_lt_of_le keeps enough)
        refine ⟨_, rfl, fun flag => absurd flag unsorted,
          subArray_of_sublist (List.Perm.refl _) filter_sublist kept, fun _ => ?_⟩
        -- what is kept is no larger than the largest logit, so that one is kept as well
        obtain ⟨first, rest, shape⟩ := exists_cons_of_ne_nil kept
        obtain ⟨isThere, above⟩ := mem_filter.mp (shape ▸ mem_cons_self)
        obtain ⟨top, member, largest⟩ := maxLogit_attained usable.some_
        have le := logit_le_maxLogit isThere
        rw [decide_eq_true_eq] at above
        refine ⟨top, mem_filter.mpr ⟨member, ?_⟩, fun b inData => ?_⟩
        · rw [decide_eq_true_eq, largest]
          exact above.trans le
        · rw [largest]
          exact logit_le_maxLogit inData
      case isFalse => exact minPSorted_filtered std m usable p minKeep

theorem tailFree_filtered (std : StdSort) (m : CMath) (usable : Usable candidates) (z : ℚ)
    (minKeep : Nat) : Filtered true candidates (tailFree std m candidates z minKeep) := by
  unfold tailFree
  split
  case isTrue => exact Filtered.unchanged true usable
  case isFalse =>
    obtain ⟨weighted, success, perm, order, some_⟩ := softmax_usable std m usable true
    rw [success, Option.bind_eq_bind]
    refine filtered_take ?_ perm order some_
    cases found : cutAt _ _ _ _ with
    | none => exact length_pos_iff.mpr some_
    | some i =>
      obtain ⟨cumSum, stops⟩ := cutAt_stops found
      simp only [Bool.and_eq_true, decide_eq_true_eq] at stops
      rw [Option.getD_some]
      omega

theorem sum_isSome {start : Num} (isSome : (ps.foldl Num.add start).isSome) :
    start.isSome ∧ ∀ p ∈ ps, p.isSome := by
  induction ps generalizing start with
  | nil => exact ⟨isSome, by simp⟩
  | cons p ps ih =>
    obtain ⟨both, rest⟩ := ih isSome
    cases start with
    | none => simp [Num.add] at both
    | some x =>
      cases p with
      | none => simp [Num.add] at both
      | some y => exact ⟨rfl, forall_mem_cons.mpr ⟨rfl, rest⟩⟩

theorem shiftedScores_alike (m : CMath) (ps : List Num) :
    (∀ score ∈ shiftedScores m ps, score = none) ∨ ∀ score ∈ shiftedScores m ps, score.isSome := by
  cases total : Num.sum (ps.map fun p => Num.mul (p.map Neg.neg) (Num.log m p)) with
  | none =>
    refine Or.inl fun score member => ?_
    obtain ⟨p, _, rfl⟩ := mem_map.mp member
    simp [total, Num.sub, Num.abs]
  | some entropy =>
    refine Or.inr fun score member => ?_
    obtain ⟨p, inPs, rfl⟩ := mem_map.mp member
    have isSome : (Num.sum (ps.map fun p => Num.mul (p.map Neg.neg) (Num.log m p))).isSome := by
      rw [total]
      rfl
    have term := (sum_isSome isSome).2 _ (mem_map_of_mem inPs)
    cases logged : Num.log m p with
    | none => simp [Num.mul, logged] at term
    | some l => simp [total, Num.sub, Num.abs]

theorem lt_weak {ι : Type} {score : ι → Num}
    (alike : (∀ i, score i = none) ∨ ∀ i, (score i).isSome) :
    StrictWeak fun a b => Num.lt (score a) (score b) := by
  rcases alike with none_ | some_
  · constructor
    · intro a b before
      simp [none_, Num.lt] at before
    · intro a b c _ _
      simp [none_, Num.lt]
  · have value : ∀ i, ∃ x, score i = some x := fun i => Option.isSome_iff_exists.mp (some_ i)
    choose x is_ using value
    constructor
    · intro a b before
      simp only [is_, Num.lt, Option.map₂_coe_coe, Option.getD_some, decide_eq_true_eq,
        decide_eq_false_iff_not, not_lt] at before ⊢
      exact before.le
    · intro a b c first second
      simp only [is_, Num.lt, Option.map₂_coe_coe, Option.getD_some,
        decide_eq_false_iff_not, not_lt] at first second ⊢
      exact first.trans second

theorem typical_filtered (std : StdSort) (m : CMath) (usable : Usable candidates) (p : ℚ)
    (minKeep : Nat) : Filtered false candidates (typical std m candidates p minKeep) := by
  unfold typical
  split
  case isTrue => exact Filtered.unchanged false usable
  case isFalse =>
    obtain ⟨weighted, success, perm, order, some_⟩ := softmax_usable std m usable true
    rw [success, Option.bind_eq_bind]
    have alike : (∀ i : Fin weighted.data.length,
          (shiftedScores m (weighted.data.map TokenData.p)).getD i none = none) ∨
        ∀ i : Fin weighted.data.length,
          ((shiftedScores m (weighted.data.map TokenData.p)).getD i none).isSome := by
      have inScores : ∀ i : Fin weighted.data.length,
          (shiftedScores m (weighted.data.map TokenData.p)).getD i none ∈
            shiftedScores m (weighted.data.map TokenData.p) := by
        intro i
        have within : i < (shiftedScores m (weighted.data.map TokenData.p)).length := by
          simp [shiftedScores]
        rw [getD_eq_getElem?_getD, List.getElem?_eq_getElem within]
        exact getElem_mem within
      exact (shiftedScores_alike m _).imp (fun none_ i => none_ _ (inScores i))
        fun some_ i => some_ _ (inScores i)
    have sorted := std.sort_perm (lt_weak alike) (List.finRange weighted.data.length)
    have whole := sorted.map weighted.data.get
    rw [map_get_finRange] at whole
    have count := sorted.length_eq
    have positive := length_pos_iff.mpr some_
    rw [length_finRange] at count
    refine ⟨_, rfl, by simp, ⟨?_, ?_⟩, by simp⟩
    · rw [← length_pos_iff, length_map, length_take]
      refine lt_min ?_ (by omega)
      cases cutAt _ _ _ _ with
      | none =>
        rw [Option.map_none, Option.getD_none]
        omega
      | some i => exact Nat.succ_pos i
    · exact (((take_sublist _ _).map _).map key).subperm.trans
        ((whole.map key).trans perm).subperm

theorem posLast_lt (threshold : ℚ) (i last : Nat) (ps : List Num) (before : last ≤ i) :
    posLast threshold i last ps ≤ max last (i + ps.length - 1) := by
  induction ps generalizing i last with
  | nil => exact le_max_left _ _
  | cons p ps ih =>
    rw [posLast]
    split
    · have step := ih (i + 1) i (Nat.le_succ i)
      rw [length_cons]
      omega
    · exact le_max_left _ _

theorem xtc_filtered (std : StdSort) (m : CMath) (usable : Usable candidates)
    (probability threshold chance : ℚ) (minKeep : Nat) :
    Filtered false candidates (xtc std m candidates probability threshold chance minKeep) := by
  unfold xtc
  split
  case isTrue => exact Filtered.unchanged false usable
  case isFalse =>
    split
    case isTrue => exact Filtered.unchanged false usable
    case isFalse =>
      obtain ⟨weighted, success, perm, order, some_⟩ := softmax_usable std m usable true
      rw [success, Option.bind_eq_bind, Option.bind_some]
      dsimp only
      split
      case isTrue =>
        have inside := posLast_lt threshold 0 0 (weighted.data.map TokenData.p) le_rfl
        rw [length_map] at inside
        refine ⟨_, rfl, fun _ => order.drop, ?_, by simp⟩
        refine subArray_of_sublist perm (drop_sublist _ _) ?_
        rw [← length_pos_iff, length_drop]
        omega
      case isFalse =>
        exact ⟨_, rfl, fun _ => order,
          subArray_of_sublist perm (List.Sublist.refl _) some_, by simp⟩

/-- `top_n_sigma` does nothing, or the largest logit reaches the bound that it keeps when its
maximum is zero. -/
def SigmaSafe (m : CMath) (n : ℚ) (data : List TokenData) : Prop :=
  n ≤ 0 ∨ data.length < 4 ∨ (unmasked data).length < 4 ∨ sigmaSquared (unmasked data) ≤ 0 ∨
    ((-(n * m.sqrt (sigmaSquared (unmasked data))) : ℚ) : Logit) ≤ maxLogit data

theorem foldl_max_spec (start : ℚ) (xs : List ℚ) :
    start ≤ xs.foldl max start ∧ (∀ x ∈ xs, x ≤ xs.foldl max start) ∧
      (xs.foldl max start = start ∨ xs.foldl max start ∈ xs) := by
  induction xs generalizing start with
  | nil => simp
  | cons x xs ih =>
    rw [foldl_cons]
    obtain ⟨above, others, from_⟩ := ih (max start x)
    refine ⟨(le_max_left _ _).trans above, ?_, ?_⟩
    · intro y member
      rcases mem_cons.mp member with rfl | inRest
      · exact (le_max_right _ _).trans above
      · exact others y inRest
    · rcases from_ with same | inRest
      · rw [same]
        rcases max_choice start x with isStart | isX
        · exact Or.inl isStart
        · rw [isX]
          exact Or.inr mem_cons_self
      · exact Or.inr (mem_cons_of_mem _ inRest)

theorem mem_unmasked {l : ℚ} :
    l ∈ unmasked data ↔ ∃ c ∈ data, c.logit = (l : Logit) := mem_filterMap

/-- The bound of `top_n_sigma` is at most the largest logit exactly when what the bound would
be for a maximum of zero is. -/
theorem sigma_bound {spread : ℚ} (nonneg : 0 ≤ spread) :
    (((unmasked data).foldl max 0 - spread : ℚ) : Logit) ≤ maxLogit data ↔
      ((-spread : ℚ) : Logit) ≤ maxLogit data := by
  obtain ⟨zero, others, from_⟩ := foldl_max_spec 0 (unmasked data)
  rcases from_ with isZero | isLogit
  · rw [isZero, zero_sub]
  · -- the maximum is a logit that is not negative, so that both bounds are below it
    obtain ⟨c, member, same⟩ := mem_unmasked.mp isLogit
    have top := logit_le_maxLogit member
    rw [same] at top
    refine iff_of_true (le_trans ?_ top) (le_trans ?_ top) <;> rw [WithBot.coe_le_coe] <;> linarith

theorem softmax_filtered (std : StdSort) (m : CMath) (usable : Usable candidates)
    (normalize : Bool) : Filtered true candidates (softmax std m candidates normalize) := by
  obtain ⟨weighted, success, perm, order, some_⟩ := softmax_usable std m usable normalize
  have all := filtered_take (length_pos_iff.mpr some_) perm order some_
  rw [take_length] at all
  rwa [success]

theorem Filtered.after {kept : TokenDataArray} {result : Option TokenDataArray}
    (part : SubArray candidates.data kept.data) (top : HasTop candidates.data kept.data)
    (filtered : Filtered true kept result) : Filtered true candidates result := by
  obtain ⟨after, same, order, sub, keeps⟩ := filtered
  refine ⟨after, same, order, ⟨sub.1, sub.2.trans part.2⟩, fun _ => ?_⟩
  obtain ⟨c, inKept, largest⟩ := top
  obtain ⟨d, inAfter, above⟩ := keeps rfl
  exact ⟨d, inAfter, fun b inData => (largest b inData).trans (above c inKept)⟩

/-- The bound above which `top_n_sigma` keeps candidates. -/
def sigmaThresh (m : CMath) (n : ℚ) (data : List TokenData) : ℚ :=
  (unmasked data).foldl max 0 - n * m.sqrt (sigmaSquared (unmasked data))

theorem topNSigma_filtered (std : StdSort) (m : CMath) (usable : Usable candidates) {n : ℚ}
    (safe : SigmaSafe m n candidates.data) :
    Filtered true candidates (topNSigma std m candidates n) := by
  unfold topNSigma
  split
  case isTrue => exact Filtered.unchanged true usable
  case isFalse active =>
    rw [not_or, not_le] at active
    dsimp only
    split
    case isTrue => exact Filtered.unchanged true usable
    case isFalse enough =>
      split
      case isTrue => exact Filtered.unchanged true usable
      case isFalse spreads =>
        have nonneg := mul_nonneg active.1.le (m.sqrt_nonneg (sigmaSquared (unmasked candidates.data)))
        have bound : ((sigmaThresh m n candidates.data : ℚ) : Logit) ≤ maxLogit candidates.data := by
          refine (sigma_bound nonneg).mpr ?_
          rcases safe with off | few | masked | flat | bound
          · exact absurd off (not_le.mpr active.1)
          · omega
          · exact absurd masked enough
          · exact absurd flat spreads
          · exact bound
        obtain ⟨top, member, largest⟩ := maxLogit_attained usable.some_
        have inKept : top ∈ candidates.data.filter fun c =>
            decide (((sigmaThresh m n candidates.data : ℚ) : Logit) ≤ c.logit) :=
          mem_filter.mpr ⟨member, by simpa [largest] using bound⟩
        have kept := ne_nil_of_mem inKept
        have part := subArray_of_sublist (List.Perm.refl (candidates.data.map key))
          filter_sublist kept
        have keeps : HasTop candidates.data (candidates.data.filter fun c =>
            decide (((sigmaThresh m n candidates.data : ℚ) : Logit) ≤ c.logit)) :=
          ⟨top, inKept, fun b inData => (logit_le_maxLogit inData).trans largest.ge⟩
        have order : candidates.sorted = true → Descending (candidates.data.filter fun c =>
            decide (((sigmaThresh m n candidates.data : ℚ) : Logit) ≤ c.logit)) :=
          fun flag => (usable.ordered flag).filter _
        split
        case isTrue => exact (softmax_filtered std m ⟨kept, order⟩ true).after part keeps
        case isFalse => exact ⟨_, rfl, order, part, fun _ => keeps⟩

/-- Where the largest logit is below the bound, nothing is kept and `softmax` asserts. -/
theorem topNSigma_none (std : StdSort) (m : CMath) (usable : Usable candidates) {n : ℚ}
    (unsafe_ : ¬SigmaSafe m n candidates.data) : topNSigma std m candidates n = none := by
  simp only [SigmaSafe, not_or, not_le, not_lt] at unsafe_
  obtain ⟨active, many, unmasked_, spreads, below⟩ := unsafe_
  have nonneg := mul_nonneg active.le (m.sqrt_nonneg (sigmaSquared (unmasked candidates.data)))
  have bound : maxLogit candidates.data < ((sigmaThresh m n candidates.data : ℚ) : Logit) :=
    not_le.mp fun le => absurd ((sigma_bound nonneg).mp le) (not_le.mpr below)
  have nothing : candidates.data.filter (fun c =>
      decide (((sigmaThresh m n candidates.data : ℚ) : Logit) ≤ c.logit)) = [] := by
    refine filter_eq_nil_iff.mpr fun c member => ?_
    simpa using (logit_le_maxLogit member).trans_lt bound
  have some_ := length_pos_iff.mpr usable.some_
  have inactive : ¬(n ≤ 0 ∨ candidates.data.length < 4) := by
    rw [not_or, not_le, not_lt]
    exact ⟨active, many⟩
  rw [sigmaThresh] at nothing
  rw [topNSigma, if_neg inactive]
  dsimp only
  rw [if_neg (not_lt.mpr unmasked_), if_neg (not_le.mpr spreads), nothing, length_nil,
    if_pos some_]
  have empty : (llamaSort std { candidates with data := [] } (-1)).data = [] := by
    rw [llamaSort, if_pos (Or.inr (by simp))]
  simp [softmax, empty]

theorem softmax_passes (std : StdSort) (m : CMath) (usable : Usable candidates)
    (normalize : Bool) :
    ∃ after, softmax std m candidates normalize = some after ∧ Usable after := by
  obtain ⟨weighted, success, -, order, some_⟩ := softmax_usable std m usable normalize
  exact ⟨weighted, success, some_, fun _ => order⟩

theorem temperature_descending {temp : ℚ} (warm : 0 < temp) (order : Descending data) :
    Descending (data.map fun c => { c with logit := WithBot.map (· / temp) c.logit }) := by
  have mono : Monotone (WithBot.map fun l : ℚ => l / temp) :=
    Monotone.withBot_map fun x y le => div_le_div_of_nonneg_right le warm.le
  unfold Descending at ⊢
  rw [pairwise_map]
  exact order.imp fun le => mono le

theorem temperature_passes (usable : Usable candidates) {temp : ℚ} (warm : 0 < temp) :
    Usable (temperature candidates temp) :=
  ⟨by simpa [temperature] using usable.some_,
    fun flag => temperature_descending warm (usable.ordered flag)⟩

theorem sum_bounds {start total : ℚ} (sum : ps.foldl Num.add (some start) = some total)
    (nonneg : ∀ q, some q ∈ ps → 0 ≤ q) : start ≤ total ∧ ∀ q, some q ∈ ps → start + q ≤ total := by
  induction ps generalizing start with
  | nil =>
    rw [foldl_nil, Option.some.injEq] at sum
    exact ⟨sum.le, by simp⟩
  | cons p ps ih =>
    rw [foldl_cons] at sum
    cases p with
    | none =>
      have isSome := (sum_isSome (Option.isSome_of_eq_some sum)).1
      simp [Num.add] at isSome
    | some x =>
      have later : ∀ q, some q ∈ ps → 0 ≤ q :=
        fun q member => nonneg q (mem_cons_of_mem _ member)
      have first := nonneg x mem_cons_self
      obtain ⟨more, each⟩ := ih sum later
      refine ⟨by linarith, fun q member => ?_⟩
      rcases mem_cons.mp member with same | inRest
      · rw [Option.some.inj same]
        exact more
      · linarith [each q inRest]

theorem prob_nonneg {m : CMath} {maxL logit : Logit} {q : ℚ} (value : prob m maxL logit = some q) :
    0 ≤ q := by
  unfold prob at value
  split at value
  · simp at value
  · rw [← Option.some.inj value]
    exact m.expf.weight_nonneg maxL logit

theorem softmax_unit {weighted : TokenDataArray}
    (success : softmax std m candidates true = some weighted) :
    ∀ p ∈ weighted.data.map TokenData.p, ∀ q, p = some q → 0 ≤ q ∧ q ≤ 1 := by
  unfold softmax at success
  dsimp only at success
  split at success
  case h_1 => simp at success
  case h_2 first rest shape =>
    rw [if_pos rfl, Option.some.injEq] at success
    intro p member q value
    rw [← success] at member
    simp only [map_map, mem_map] at member
    obtain ⟨c, inData, rfl⟩ := member
    obtain ⟨w, total, weight, sum, rfl⟩ := Option.map₂_eq_some_iff.mp value
    have nonneg := prob_nonneg weight
    have bounds := (sum_bounds sum fun x inSum => by
      obtain ⟨d, _, isProb⟩ := mem_map.mp inSum
      exact prob_nonneg isProb).2 w (mem_map.mpr ⟨c, inData, weight⟩)
    rw [zero_add] at bounds
    exact ⟨div_nonneg nonneg (nonneg.trans bounds), div_le_one_of_le₀ bounds (nonneg.trans bounds)⟩

theorem log_nonpos (m : CMath) {x : ℚ} (positive : 0 < x) (le : x ≤ 1) : m.log x ≤ 0 := by
  rcases le.lt_or_eq with lt | rfl
  · exact (m.log_neg x positive lt).le
  · exact m.log_one.le

theorem entropyOf_nonneg (m : CMath) (unit : ∀ p ∈ ps, ∀ q, p = some q → 0 ≤ q ∧ q ≤ 1) :
    0 ≤ entropyOf m ps := by
  refine List.foldlRecOn ps _ le_rfl fun entropy nonneg p member => ?_
  cases p with
  | none => exact nonneg
  | some q =>
    dsimp only
    split
    case isTrue positive =>
      have below := (unit _ member q rfl).2
      have := mul_nonpos_of_nonneg_of_nonpos positive.le (log_nonpos m positive below)
      linarith
    case isFalse => exact nonneg

theorem dynTemp_nonneg (m : CMath) {weighted : List TokenData} {minTemp maxTemp : ℚ}
    (exponent : ℚ) (low : 0 ≤ minTemp) (high : minTemp ≤ maxTemp) (some_ : weighted ≠ [])
    (unit : ∀ p ∈ weighted.map TokenData.p, ∀ q, p = some q → 0 ≤ q ∧ q ≤ 1) :
    0 ≤ dynTemp m weighted minTemp maxTemp exponent := by
  have many : (1 : ℚ) ≤ weighted.length := by
    exact_mod_cast length_pos_iff.mpr some_
  have most : 0 ≤ -m.log (1 / weighted.length) :=
    neg_nonneg.mpr (log_nonpos m (by positivity) (div_le_one_of_le₀ many (by positivity)))
  have normalized := div_nonneg (entropyOf_nonneg m unit) most
  have range := mul_nonneg (sub_nonneg.mpr high) (m.pow_nonneg _ exponent normalized)
  exact add_nonneg low range

def WarmEnough (std : StdSort) (m : CMath) (params : SamplingParams) (cur : TokenDataArray) :
    Prop :=
  2 ≤ cur.data.length → ∀ weighted, softmax std m cur true = some weighted →
    dynTemp m weighted.data (dynatempMin params) (dynatempMax params) params.dynatempExponent ≠ 0

theorem entropy_passes {params : SamplingParams} (usable : Usable candidates)
    (dynamic : 0 < params.dynatempRange) (warm : WarmEnough std m params candidates) :
    ∃ after, entropy std m candidates (dynatempMin params) (dynatempMax params)
      params.dynatempExponent = some after ∧ Usable after := by
  unfold entropy
  split
  case isTrue => exact ⟨candidates, rfl, usable⟩
  case isFalse several =>
    obtain ⟨weighted, success, -, order, some_⟩ := softmax_usable std m usable true
    have notZero := warm (by omega) weighted success
    have range : dynatempMin params ≤ dynatempMax params := by
      exact max_le_max le_rfl (by linarith)
    have nonneg := dynTemp_nonneg m params.dynatempExponent (le_max_left _ _) range some_
      (softmax_unit success)
    have scaled := temperature_descending (lt_of_le_of_ne nonneg notZero.symm) order
    rw [success, Option.bind_eq_bind, Option.bind_some]
    dsimp only
    rw [if_neg notZero]
    split
    case h_1 shape => simp [temperature, some_] at shape
    case h_2 first rest shape =>
      refine ⟨_, rfl, by simp [shape], fun _ => ?_⟩
      refine descending_map ?_ (descending_map ?_ scaled)
      · exact fun c => rfl
      · exact fun c => rfl

theorem entropy_none {params : SamplingParams} (cold : ¬WarmEnough std m params candidates) :
    entropy std m candidates (dynatempMin params) (dynatempMax params)
      params.dynatempExponent = none := by
  simp only [WarmEnough, not_forall, not_not] at cold
  obtain ⟨several, weighted, success, zero⟩ := cold
  rw [entropy, if_neg (by omega), success, Option.bind_eq_bind]
  exact if_pos zero

theorem dry_passes (m : CMath) (smpl : Dry) (usable : Usable candidates) :
    Usable (smpl.apply m.log candidates).2 := by
  unfold Dry.apply
  split
  · exact usable
  · dsimp only
    split
    · exact usable
    · split
      · exact usable
      · exact ⟨by simpa using usable.some_, by simp⟩

theorem adaptiveP_passes (std : StdSort) (m : CMath) (usable : Usable candidates)
    (ctx : AdaptiveP) :
    ∃ after ctx', adaptiveP std m candidates ctx = some (after, ctx') ∧ after.data ≠ [] := by
  unfold adaptiveP
  split
  case isTrue =>
    obtain ⟨after, success, passes⟩ := softmax_passes std m usable true
    exact ⟨after, ctx, by rw [success]; rfl, passes.some_⟩
  case isFalse =>
    rw [if_neg usable.some_]
    dsimp only
    split <;> split <;> exact ⟨_, _, rfl, by simpa using usable.some_⟩

def SamplerType.isFilter : SamplerType → Bool
  | .topK | .topP | .minP | .tfsZ | .typicalP | .xtc | .topNSigma => true
  | _ => false

def SamplerType.keepsTop : SamplerType → Bool
  | .topK | .topP | .minP | .tfsZ | .topNSigma => true
  | _ => false

/-- What a step of the queue promises: there are candidates left, a filter leaves some of
those it got, and the ones that keep a largest logit do so. -/
def Kept (sampler : SamplerType) (before after : TokenDataArray) : Prop :=
  after.data ≠ [] ∧ (sampler.isFilter = true → SubArray before.data after.data) ∧
    (sampler.keepsTop = true → HasTop before.data after.data)

/-- The condition on a step: `top_n_sigma` does not meet its zero, and no logit is divided by
zero. -/
def StepSafe (std : StdSort) (m : CMath) (params : SamplingParams) (sampler : SamplerType)
    (cur : TokenDataArray) : Prop :=
  match sampler with
  | .topNSigma => SigmaSafe m params.topNSigma cur.data
  | .temperature => 0 < params.dynatempRange → WarmEnough std m params cur
  | _ => True

variable {params : SamplingParams} {st : QueueState}

theorem Kept.of_filtered {top : Bool} {result : Option TokenDataArray}
    (filtered : Filtered top candidates result) (tops : sampler.keepsTop = true → top = true) :
    ∃ after, result = some after ∧ Kept sampler candidates after ∧ Usable after := by
  obtain ⟨after, same, order, part, keeps⟩ := filtered
  exact ⟨after, same, ⟨part.1, fun _ => part, fun isTop => keeps (tops isTop)⟩, part.1, order⟩

theorem Kept.of_usable {after : TokenDataArray} (usable : Usable after)
    (noFilter : sampler.isFilter = false) (noTop : sampler.keepsTop = false) :
    Kept sampler candidates after :=
  ⟨usable.some_, by simp [noFilter], by simp [noTop]⟩

theorem applySampler_kept (usable : Usable st.cur) (safe : StepSafe std m params sampler st.cur) :
    ∃ st', applySampler std m params sampler st = some st' ∧ Kept sampler st.cur st'.cur ∧
      Usable st'.cur := by
  have withCur : ∀ {result : Option TokenDataArray} {top : Bool}, Filtered top st.cur result →
      (sampler.keepsTop = true → top = true) →
      ∃ st', result.map st.withCur = some st' ∧ Kept sampler st.cur st'.cur ∧ Usable st'.cur := by
    intro result top filtered tops
    obtain ⟨after, rfl, kept, usable'⟩ := Kept.of_filtered filtered tops
    exact ⟨st.withCur after, rfl, kept, usable'⟩
  cases sampler with
  | dry =>
    have usable' := dry_passes m st.dry usable
    exact ⟨_, rfl, Kept.of_usable usable' rfl rfl, usable'⟩
  | topK => exact withCur (topK_filtered std usable params.topK params.keeps) fun _ => rfl
  | topP => exact withCur (topP_filtered std m usable params.topP params.minKeep) fun _ => rfl
  | minP => exact withCur (minP_filtered std m usable params.minP params.keeps) fun _ => rfl
  | tfsZ => exact withCur (tailFree_filtered std m usable params.tfsZ params.minKeep) fun _ => rfl
  | typicalP =>
    exact withCur (typical_filtered std m usable params.typicalP params.minKeep) (by simp
      [SamplerType.keepsTop])
  | xtc =>
    have filtered := xtc_filtered std m usable params.xtcProbability params.xtcThreshold
      (st.chances 0) params.minKeep
    obtain ⟨after, success, kept, usable'⟩ :
        ∃ after, _ = some after ∧ Kept .xtc st.cur after ∧ Usable after :=
      Kept.of_filtered filtered (by simp [SamplerType.keepsTop])
    exact ⟨_, by rw [applySampler, success]; rfl, kept, usable'⟩
  | topNSigma => exact withCur (topNSigma_filtered std m usable safe) fun _ => rfl
  | dist =>
    obtain ⟨after, success, usable'⟩ := softmax_passes std m usable false
    exact ⟨st.withCur after, by rw [applySampler, success]; rfl,
      Kept.of_usable usable' rfl rfl, usable'⟩
  | temperature =>
    by_cases dynamic : 0 < params.dynatempRange
    · obtain ⟨after, success, usable'⟩ := entropy_passes usable dynamic (safe dynamic)
      exact ⟨st.withCur after, by rw [applySampler, if_pos dynamic, success]; rfl,
        Kept.of_usable usable' rfl rfl, usable'⟩
    · have usable' := temperature_passes usable params.warm
      exact ⟨_, by rw [applySampler, if_neg dynamic], Kept.of_usable usable' rfl rfl, usable'⟩
  | adaptiveP => exact ⟨_, rfl, Kept.of_usable usable rfl rfl, usable⟩

theorem applySampler_none (usable : Usable st.cur)
    (unsafe_ : ¬StepSafe std m params sampler st.cur) :
    applySampler std m params sampler st = none := by
  cases sampler with
  | topNSigma =>
    rw [applySampler, topNSigma_none std m usable unsafe_]
    rfl
  | temperature =>
    rw [StepSafe, Classical.not_imp] at unsafe_
    rw [applySampler, if_pos unsafe_.1, entropy_none unsafe_.2]
    rfl
  | _ => exact absurd trivial unsafe_

variable (std m params)

/-- The steps of a run, each on what the steps before it left: they succeed, and keep what they
promise. -/
def RunKeeps : List SamplerType → QueueState → Prop
  | [], _ => True
  | sampler :: rest, st =>
    ∃ st', applySampler std m params sampler st = some st' ∧ Kept sampler st.cur st'.cur ∧
      RunKeeps rest st'

def RunSafe : List SamplerType → QueueState → Prop
  | [], _ => True
  | sampler :: rest, st =>
    StepSafe std m params sampler st.cur ∧
      ∀ st', applySampler std m params sampler st = some st' → RunSafe rest st'

variable {std m params}

/-- A run of the queue, in any order of the samplers, keeps what its steps promise exactly when
every step meets the condition; the adaptive sampler at its end then succeeds as well. -/
theorem runKeeps_iff (std : StdSort) (m : CMath) (params : SamplingParams)
    (samplers : List SamplerType) (st : QueueState) (usable : Usable st.cur) :
    (RunKeeps std m params samplers st ↔ RunSafe std m params samplers st) ∧
      (RunSafe std m params samplers st → ∃ final,
        applySamplers std m params samplers st = some final ∧ Usable final.cur) := by
  induction samplers generalizing st with
  | nil => exact ⟨Iff.rfl, fun _ => ⟨st, rfl, usable⟩⟩
  | cons sampler rest ih =>
    refine ⟨⟨?_, ?_⟩, ?_⟩
    · rintro ⟨st', success, kept, keeps⟩
      have safe : StepSafe std m params sampler st.cur := by
        by_contra unsafe_
        rw [applySampler_none usable unsafe_] at success
        simp at success
      obtain ⟨again, success', -, usable'⟩ := applySampler_kept usable safe
      refine ⟨safe, fun other isOther => ?_⟩
      rw [success'] at success isOther
      rw [← Option.some.inj isOther]
      rw [← Option.some.inj success] at keeps
      exact (ih again usable').1.mp keeps
    · rintro ⟨safe, restSafe⟩
      obtain ⟨st', success, kept, usable'⟩ := applySampler_kept usable safe
      exact ⟨st', success, kept, (ih st' usable').1.mpr (restSafe st' success)⟩
    · rintro ⟨safe, restSafe⟩
      obtain ⟨st', success, -, usable'⟩ := applySampler_kept usable safe
      obtain ⟨final, run, finalUsable⟩ := (ih st' usable').2 (restSafe st' success)
      refine ⟨final, ?_, finalUsable⟩
      rw [applySamplers, foldlM_cons, success]
      exact run

end

def tangentMath : CMath where
  expf := tangentExp
  log := fun x => x - 1
  log_one := sub_self 1
  log_neg := fun x _ below => by linarith
  sqrt := fun x => max 0 ((x + 1) / 2)
  sqrt_nonneg := fun x => le_max_left _ _
  pow := fun _ _ => 1
  pow_nonneg := fun _ _ _ => zero_le_one

def plainParams : SamplingParams where
  temp := 1
  dynatempRange := 0
  dynatempExponent := 1
  topK := 40
  topP := 1 / 2
  minP := 1 / 20
  tfsZ := 1
  typicalP := 1
  xtcProbability := 0
  xtcThreshold := 1 / 10
  topNSigma := 1
  minKeep := 1
  warm := one_pos
  keeps := le_rfl

def negativeLogits : List TokenData :=
  [{ id := 0, logit := ((-1000 : ℚ) : Logit), p := some 0 },
    { id := 1, logit := ((-1000 : ℚ) : Logit), p := some 0 },
    { id := 2, logit := ((-1002 : ℚ) : Logit), p := some 0 },
    { id := 3, logit := ((-1002 : ℚ) : Logit), p := some 0 }]

def negativeState : QueueState where
  cur := { data := negativeLogits, sorted := false }
  dry :=
    { totalContextSize := 8, dryMultiplier := 0, dryBase := 2, dryAllowedLength := 2
      dryPenaltyLastN := -1, dryProcessedBreakers := [], dryRepeatCount := []
      dryMaxTokenRepeat := [], lastTokens := RingBuffer.empty 0 8 }
  adaptive := none
  chances := fun _ => 0
  useAdaptive := false

theorem negativeState_usable : Usable negativeState.cur :=
  ⟨cons_ne_nil _ _, by simp [negativeState]⟩

theorem negativeLogits_unsafe : ¬SigmaSafe tangentMath 1 negativeLogits := by
  have logits : unmasked negativeLogits = [-1000, -1000, -1002, -1002] := rfl
  have top : maxLogit negativeLogits = ((-1000 : ℚ) : Logit) := by
    simp only [maxLogit, negativeLogits]
    norm_num
  have spread : sigmaSquared [-1000, -1000, -1002, -1002] = 1 := by norm_num [sigmaSquared]
  rw [SigmaSafe, logits, spread, top]
  norm_num [negativeLogits, tangentMath]

end LlamaCpp.Samplers
