import LlamaCpp.Samplers.Dry

/-!
# The table of repetitions

The lengths of step 2 are the longest common suffixes of the context with its prefixes, cut
off at the limit of step 1, and step 3 keeps for every token the largest one in front of it.
-/

set_option autoImplicit false

namespace LlamaCpp.Samplers

open LlamaCpp.Lib LlamaCpp.Common List

section Counts

variable {rat : Nat → Option Token} {n limit : Nat}

theorem scanUp_eq (k fuel m : Nat) :
    scanUp rat n k fuel (m + k) = extend rat n k fuel m + k := by
  induction fuel generalizing m with
  | zero => rfl
  | succ fuel ih =>
    have next : m + k + 1 = m + 1 + k := by omega
    have back : m + k - k = m := Nat.add_sub_cancel m k
    rw [scanUp, extend, back, next, ih]
    simp only [eq_comm]
    split <;> rfl

def Counted (rat : Nat → Option Token) (n limit : Nat) (counts : List Nat) (k : Nat) : Prop :=
  ∃ len, Longest rat n k len ∧ counts[n - 1 - k]? = some (min len limit)

/-- What holds before the shift `k`: the smaller shifts are counted, and the bounds are those
of a box that starts before `k`, or there is no box yet. -/
structure ZInvariant (rat : Nat → Option Token) (n limit k : Nat) (st : ZState) : Prop where
  size : st.counts.length = n
  counted : ∀ shift, 0 < shift → shift < k → Counted rat n limit st.counts shift
  box : st.rt = 0 ∨ (0 < st.lt ∧ st.lt < k ∧ Box rat n st.lt st.rt)

variable {k : Nat}

theorem Counted.set {counts : List Nat} {shift len : Nat} (inside : k < n) (other : shift < k)
    (counted : Counted rat n limit counts shift) :
    Counted rat n limit (counts.set (n - 1 - k) len) shift := by
  obtain ⟨found, longest, at_⟩ := counted
  have differ : n - 1 - k ≠ n - 1 - shift := by omega
  exact ⟨found, longest, by rw [List.getElem?_set_ne differ, at_]⟩

/-- Writing the count of the shift `k` keeps the others. -/
theorem ZInvariant.write {st : ZState} {len : Nat} (inv : ZInvariant rat n limit k st)
    (inside : k < n) (longest : Longest rat n k len) {lt rt : Nat}
    (box : rt = 0 ∨ (0 < lt ∧ lt < k + 1 ∧ Box rat n lt rt)) : ZInvariant rat n limit (k + 1)
      { counts := st.counts.set (n - 1 - k) (min len limit), lt := lt, rt := rt } := by
  refine ⟨by rw [length_set, inv.size], ?_, box⟩
  intro shift positive below
  rcases Nat.lt_succ_iff_lt_or_eq.mp below with before | rfl
  · exact (inv.counted shift positive before).set inside before
  · have within : n - 1 - shift < st.counts.length := by
      rw [inv.size]
      omega
    exact ⟨len, longest, List.getElem?_set_self within⟩

theorem zStep_invariant {st : ZState} (positive : 0 < k) (inside : k < n)
    (inv : ZInvariant rat n limit k st) :
    ZInvariant rat n limit (k + 1) (zStep rat n limit st k) := by
  have none : Reappear rat n k 0 := ⟨by omega, fun m below => by omega⟩
  unfold zStep
  by_cases outside : st.rt < k
  · -- outside the box the prefix is counted from its start
    rw [if_pos outside]
    have longest := (extend_longest none (show n ≤ 0 + k + n by omega)).1
    by_cases some_ : 0 < extend rat n k n 0
    · rw [if_pos some_]
      exact inv.write inside longest
        (Or.inr ⟨positive, k.lt_succ_self, longest.1.box some_⟩)
    · rw [if_neg some_]
      refine inv.write inside longest ?_
      rcases inv.box with noBox | ⟨lower, before, box⟩
      · exact Or.inl noBox
      · exact Or.inr ⟨lower, before.trans k.lt_succ_self, box⟩
  · rw [if_neg outside]
    rcases inv.box with noBox | ⟨lower, before, box⟩
    · omega
    · obtain ⟨len, longest, at_⟩ := inv.counted (k - st.lt) (by omega) (by omega)
      have read : st.counts.getD (n - 1 - (k - st.lt)) 0 = min len limit := by
        rw [getD_eq_getElem?_getD, at_, Option.getD_some]
      simp only [read]
      by_cases ends : min len limit < st.rt - k + 1
      · rw [if_pos ends]
        obtain ⟨found, isLongest, same⟩ := box.copy before.le (not_lt.mp outside) longest ends
        have capped : min (min len limit) limit = min found limit := by omega
        rw [capped]
        exact inv.write inside isLongest
          (Or.inr ⟨lower, before.trans k.lt_succ_self, box⟩)
      · rw [if_neg ends]
        have re := box.long before.le (not_lt.mp outside) longest (by omega)
        have start : st.rt + 1 = (st.rt - k + 1) + k := by omega
        obtain ⟨isLongest, atLeast⟩ :=
          extend_longest re (show n ≤ st.rt - k + 1 + k + n by omega)
        rw [start, scanUp_eq, Nat.add_sub_cancel]
        have ends' : extend rat n k n (st.rt - k + 1) + k - 1 =
            k + extend rat n k n (st.rt - k + 1) - 1 := by omega
        rw [ends']
        exact inv.write inside isLongest
          (Or.inr ⟨positive, k.lt_succ_self, isLongest.1.box (by omega)⟩)

theorem repeatCounts_invariant (n limit : Nat) {steps : Nat} (inside : steps ≤ n - 1) :
    ZInvariant rat n limit (steps + 1) ((List.range' 1 steps).foldl (zStep rat n limit)
      { counts := List.replicate n 0, lt := 0, rt := 0 }) := by
  induction steps with
  | zero =>
    exact ⟨length_replicate, fun shift positive below => by omega, Or.inl rfl⟩
  | succ steps ih =>
    rw [range'_concat, foldl_append]
    have step := zStep_invariant (Nat.succ_pos steps) (by omega) (ih (by omega))
    rw [one_mul, add_comm 1 steps]
    exact step

theorem repeatCounts_counted (positive : 0 < k) (inside : k < n) :
    Counted rat n limit (repeatCounts rat n limit) k :=
  (repeatCounts_invariant n limit le_rfl).counted k positive (by omega)

end Counts

def Dry.history (smpl : Dry) : List Token :=
  smpl.lastTokens.toVector.drop (smpl.lastTokens.sz - smpl.lastNRepeat)

namespace Dry

variable {smpl : Dry}

theorem lastNRepeat_le (smpl : Dry) : smpl.lastNRepeat ≤ smpl.lastTokens.sz := by
  unfold lastNRepeat
  omega

@[simp] theorem length_history (smpl : Dry) : smpl.history.length = smpl.lastNRepeat := by
  have := smpl.lastNRepeat_le
  rw [history, length_drop, RingBuffer.length_toVector]
  omega

variable {i : Nat}

theorem rat_eq_history (inside : i < smpl.lastNRepeat) :
    smpl.lastTokens.rat i = smpl.history.reverse[i]? := by
  have := smpl.lastNRepeat_le
  rw [RingBuffer.rat_eq, history, reverse_drop, RingBuffer.length_toVector,
    List.getElem?_take_of_lt (by omega)]

theorem rat_eq_getElem? (inside : i < smpl.lastNRepeat) :
    smpl.lastTokens.rat i = smpl.history[smpl.lastNRepeat - 1 - i]? := by
  rw [rat_eq_history inside, List.getElem?_reverse (by rw [length_history]; exact inside),
    length_history]

/-- The breaker stands in the window with its first token `i` places before the last one. -/
def Occurs (h : List Token) (i : Nat) (breaker : Token × List Token) : Prop :=
  breaker.1 :: breaker.2 <+: h.drop (h.length - 1 - i)

theorem tailMatches_iff (smpl : Dry) (i : Nat) (tail : List Token) :
    smpl.tailMatches i tail = true ↔
      ∀ (offset : Nat) (token : Token), tail[offset]? = some token →
        smpl.lastTokens.rat (i - offset - 1) = some token := by
  rw [tailMatches, all_eq_true]
  constructor
  · intro all offset token at_
    have member : (token, offset) ∈ tail.zipIdx := mem_zipIdx_iff_getElem?.mpr at_
    simpa using all _ member
  · intro all entry member
    rw [decide_eq_true_eq]
    exact all entry.2 entry.1 (mem_zipIdx_iff_getElem?.mp member)

theorem occurs_iff (inside : i < smpl.lastNRepeat) {breaker : Token × List Token} :
    Occurs smpl.history i breaker ↔
      smpl.lastTokens.rat i = some breaker.1 ∧ breaker.2.length ≤ i ∧
        smpl.tailMatches i breaker.2 = true := by
  obtain ⟨head, tail⟩ := breaker
  -- the tail token at an offset lies `offset + 1` places behind the head
  have place : ∀ offset < i, smpl.lastTokens.rat (i - offset - 1) =
      smpl.history[smpl.lastNRepeat - 1 - i + (offset + 1)]? := by
    intro offset below
    rw [rat_eq_getElem? (by omega)]
    congr 1
    omega
  rw [Occurs, length_history, prefix_iff_getElem?, tailMatches_iff]
  dsimp only
  constructor
  · intro pre
    have fits : tail.length ≤ i := by
      by_contra long
      have last := pre (i + 1) (by rw [length_cons]; omega)
      rw [List.getElem?_drop, List.getElem?_eq_none (by rw [length_history]; omega)] at last
      simp at last
    refine ⟨?_, fits, ?_⟩
    · rw [rat_eq_getElem? inside]
      have found := pre 0 (Nat.zero_lt_succ _)
      rwa [List.getElem?_drop, getElem_cons_zero] at found
    · intro offset token at_
      obtain ⟨within, same⟩ := List.getElem?_eq_some_iff.mp at_
      rw [place offset (by omega), ← List.getElem?_drop]
      have found := pre (offset + 1) (by simpa using within)
      rw [found, getElem_cons_succ, same]
  · rintro ⟨first, fits, others⟩ m within
    cases m with
    | zero =>
      rw [rat_eq_getElem? inside] at first
      simpa using first
    | succ offset =>
      have inTail : offset < tail.length := by simpa using within
      have found := others offset tail[offset] (List.getElem?_eq_getElem inTail)
      rw [place offset (by omega)] at found
      simpa using found

theorem longestMatch_fold (smpl : Dry) (i : Nat) (tails : List (List Token)) (start : Int) :
    let longest := tails.foldl (fun longest tail =>
      if longest < tail.length ∧ tail.length ≤ i ∧ smpl.tailMatches i tail then
        (tail.length : Int) else longest) start
    start ≤ longest ∧
      (∀ tail ∈ tails, tail.length ≤ i → smpl.tailMatches i tail = true →
        (tail.length : Int) ≤ longest) ∧
      (longest = start ∨ ∃ tail ∈ tails, tail.length ≤ i ∧ smpl.tailMatches i tail = true ∧
        longest = tail.length) := by
  induction tails generalizing start with
  | nil => simp
  | cons tail tails ih =>
    rw [foldl_cons]
    split
    case isTrue better =>
      obtain ⟨larger, atLeast, attained⟩ := ih (tail.length : Int)
      refine ⟨better.1.le.trans larger, ?_, Or.inr ?_⟩
      · intro other member fits matching
        rcases mem_cons.mp member with rfl | inRest
        · exact larger
        · exact atLeast other inRest fits matching
      · rcases attained with same | ⟨other, member, found⟩
        · exact ⟨tail, mem_cons_self, better.2.1, better.2.2, same⟩
        · exact ⟨other, mem_cons_of_mem _ member, found⟩
    case isFalse worse =>
      obtain ⟨larger, atLeast, attained⟩ := ih start
      refine ⟨larger, ?_, ?_⟩
      · intro other member fits matching
        rcases mem_cons.mp member with rfl | inRest
        · have notMore : (other.length : Int) ≤ start :=
            not_lt.mp fun more => worse ⟨more, fits, matching⟩
          exact notMore.trans larger
        · exact atLeast other inRest fits matching
      · rcases attained with same | ⟨other, member, found⟩
        · exact Or.inl same
        · exact Or.inr ⟨other, mem_cons_of_mem _ member, found⟩

/-- The limit of step 1: the number of tokens behind the occurrence of a breaker that starts
last, the longest one of those that start there; all tokens when no breaker occurs. -/
def IsRepLimit (h : List Token) (breakers : List (Token × List Token)) (limit : Nat) : Prop :=
  ((∀ i < h.length, ∀ breaker ∈ breakers, ¬Occurs h i breaker) ∧ limit = h.length) ∨
    ∃ i < h.length, ∃ breaker ∈ breakers, Occurs h i breaker ∧
      (∀ j < i, ∀ other ∈ breakers, ¬Occurs h j other) ∧
      (∀ other ∈ breakers, Occurs h i other → other.2.length ≤ breaker.2.length) ∧
      limit = i - breaker.2.length

theorem mem_equalRange {token : Token} {tail : List Token} :
    tail ∈ smpl.equalRange token ↔ (token, tail) ∈ smpl.dryProcessedBreakers := by
  constructor
  · intro member
    obtain ⟨breaker, isBreaker, rfl⟩ := mem_map.mp member
    obtain ⟨inBreakers, same⟩ := mem_filter.mp isBreaker
    rw [← of_decide_eq_true same]
    exact inBreakers
  · intro member
    exact mem_map.mpr ⟨(token, tail), mem_filter.mpr ⟨member, by simp⟩, rfl⟩

theorem repLimitFrom_isRepLimit {left : Nat} (all : i + left = smpl.lastNRepeat)
    (before : ∀ j < i, ∀ breaker ∈ smpl.dryProcessedBreakers, ¬Occurs smpl.history j breaker) :
    IsRepLimit smpl.history smpl.dryProcessedBreakers
      (smpl.repLimitFrom smpl.lastNRepeat left i) := by
  induction left generalizing i with
  | zero =>
    refine Or.inl ⟨?_, by rw [repLimitFrom, length_history]⟩
    intro j inside
    rw [length_history] at inside
    exact before j (by omega)
  | succ left ih =>
    have inside : i < smpl.lastNRepeat := by omega
    obtain ⟨token, read⟩ : ∃ token, smpl.lastTokens.rat i = some token := by
      rw [rat_eq_getElem? inside]
      exact ⟨_, List.getElem?_eq_getElem (by rw [length_history]; omega)⟩
    obtain ⟨atLeastStart, atLeast, attained⟩ :=
      smpl.longestMatch_fold i (smpl.equalRange token) (-1)
    -- the breakers that occur here are the rests that match
    have here : ∀ breaker ∈ smpl.dryProcessedBreakers, Occurs smpl.history i breaker →
        (breaker.2.length : Int) ≤ smpl.longestMatch i (smpl.equalRange token) := by
      intro breaker member occurs
      obtain ⟨first, fits, matching⟩ := (occurs_iff inside).mp occurs
      have same : breaker.1 = token := by
        rw [read] at first
        exact (Option.some.inj first).symm
      exact atLeast breaker.2 (mem_equalRange.mpr (same ▸ member)) fits matching
    simp only [repLimitFrom, read]
    split
    case isTrue found =>
      rcases attained with none | ⟨tail, member, fits, matching, same⟩
      · exact absurd found (by rw [longestMatch, none]; decide)
      · refine Or.inr ⟨i, by rw [length_history]; exact inside, (token, tail),
          mem_equalRange.mp member, (occurs_iff inside).mpr ⟨read, fits, matching⟩, before,
          ?_, ?_⟩
        · intro other isBreaker occurs
          have le := here other isBreaker occurs
          rw [longestMatch, same] at le
          exact_mod_cast le
        · rw [longestMatch, same, Int.toNat_natCast]
    case isFalse missing =>
      refine ih (by omega) ?_
      intro j below breaker member
      rcases Nat.lt_succ_iff_lt_or_eq.mp below with earlier | rfl
      · exact before j earlier breaker member
      · intro occurs
        exact missing ((Int.natCast_nonneg _).trans (here breaker member occurs))

theorem repLimit_isRepLimit (smpl : Dry) :
    IsRepLimit smpl.history smpl.dryProcessedBreakers smpl.repLimit :=
  repLimitFrom_isRepLimit (zero_add _) fun j below => by omega

end Dry

def commonPrefix : List Token → List Token → Nat
  | x :: xs, y :: ys => if x = y then commonPrefix xs ys + 1 else 0
  | _, _ => 0

def commonSuffix (xs ys : List Token) : Nat := commonPrefix xs.reverse ys.reverse

/-- The repetitions that the token `t` would continue, one for every place in front of it. -/
def repeatLengths (h : List Token) (limit : Nat) (t : Token) (places : Nat) : List Nat :=
  ((List.range places).filter fun j => decide (h[j + 1]? = some t)).map fun j =>
    min limit (commonSuffix (h.take (j + 1)) h)

def naiveRepeat (h : List Token) (allowed : Int) (limit : Nat) (t : Token) : Option Nat :=
  (repeatLengths h limit t (h.length - 1)).max?.filter fun longest => decide (allowed ≤ longest)

theorem commonPrefix_spec (xs ys : List Token) :
    commonPrefix xs ys ≤ xs.length ∧ commonPrefix xs ys ≤ ys.length ∧
      (∀ m < commonPrefix xs ys, xs[m]? = ys[m]?) ∧
      (commonPrefix xs ys < xs.length → commonPrefix xs ys < ys.length →
        xs[commonPrefix xs ys]? ≠ ys[commonPrefix xs ys]?) := by
  induction xs generalizing ys with
  | nil => simp [commonPrefix]
  | cons x xs ih =>
    cases ys with
    | nil => simp [commonPrefix]
    | cons y ys =>
      by_cases same : x = y
      · obtain ⟨inXs, inYs, agree, differ⟩ := ih ys
        rw [commonPrefix, if_pos same]
        refine ⟨by simpa using inXs, by simpa using inYs, ?_, ?_⟩
        · intro m below
          cases m with
          | zero => simp [same]
          | succ m => simpa using agree m (by omega)
        · simpa using differ
      · rw [commonPrefix]
        simp [same]

variable {i : Nat} {allowed : Int}

theorem longest_commonSuffix (smpl : Dry) (inside : i + 1 < smpl.lastNRepeat) :
    Longest smpl.lastTokens.rat smpl.lastNRepeat (smpl.lastNRepeat - 1 - i)
      (commonSuffix (smpl.history.take (i + 1)) smpl.history) := by
  have size := smpl.length_history
  obtain ⟨inFirst, inSecond, agree, differ⟩ :=
    commonPrefix_spec (smpl.history.take (i + 1)).reverse smpl.history.reverse
  have shift : smpl.history.length - (i + 1) = smpl.lastNRepeat - 1 - i := by omega
  have later : ∀ m, (smpl.history.take (i + 1)).reverse[m]? =
      smpl.history.reverse[m + (smpl.lastNRepeat - 1 - i)]? := by
    intro m
    rw [reverse_take, List.getElem?_drop, shift, add_comm]
  rw [length_reverse, length_take] at inFirst differ
  rw [length_reverse] at differ
  unfold commonSuffix
  refine ⟨⟨by omega, fun m below => ?_⟩, fun below => ?_⟩
  · rw [Dry.rat_eq_history (by omega), Dry.rat_eq_history (by omega), ← later]
    exact (agree m below).symm
  · rw [Dry.rat_eq_history (by omega), Dry.rat_eq_history (by omega), ← later]
    exact (differ (by omega) (by omega)).symm

theorem repeatCounts_getD (smpl : Dry) (limit : Nat) (inside : i + 1 < smpl.lastNRepeat) :
    (repeatCounts smpl.lastTokens.rat smpl.lastNRepeat limit).getD i 0 =
      min limit (commonSuffix (smpl.history.take (i + 1)) smpl.history) := by
  obtain ⟨len, longest, at_⟩ : Counted smpl.lastTokens.rat smpl.lastNRepeat limit
      (repeatCounts smpl.lastTokens.rat smpl.lastNRepeat limit) (smpl.lastNRepeat - 1 - i) :=
    repeatCounts_counted (by omega) (by omega)
  have index : smpl.lastNRepeat - 1 - (smpl.lastNRepeat - 1 - i) = i := by omega
  rw [index] at at_
  rw [getD_eq_getElem?_getD, at_, Option.getD_some,
    longest.unique (longest_commonSuffix smpl inside), Nat.min_comm]

def IsBest (allowed : Int) (lengths : List Nat) (entry : Option Nat) : Prop :=
  (entry = none ∧ ∀ len ∈ lengths, ¬allowed ≤ len) ∨
    ∃ best, entry = some best ∧ best ∈ lengths ∧ allowed ≤ best ∧ ∀ len ∈ lengths, len ≤ best

theorem isBest_max (allowed : Int) (lengths : List Nat) :
    IsBest allowed lengths
      (lengths.max?.filter fun longest => decide (allowed ≤ longest)) := by
  cases largest : lengths.max? with
  | none =>
    rw [List.max?_eq_none_iff] at largest
    exact Or.inl ⟨rfl, by simp [largest]⟩
  | some best =>
    obtain ⟨member, most⟩ := List.max?_eq_some_iff.mp largest
    by_cases enough : allowed ≤ best
    · exact Or.inr ⟨best, by simp [enough], member, enough, most⟩
    · refine Or.inl ⟨by simpa using enough, ?_⟩
      intro len inLengths allowedLen
      have := most len inLengths
      omega

theorem IsBest.unique {lengths : List Nat} {first second : Option Nat}
    (one : IsBest allowed lengths first) (two : IsBest allowed lengths second) :
    first = second := by
  rcases one with ⟨none₁, few₁⟩ | ⟨best₁, some₁, member₁, enough₁, most₁⟩ <;>
    rcases two with ⟨none₂, few₂⟩ | ⟨best₂, some₂, member₂, enough₂, most₂⟩
  · rw [none₁, none₂]
  · exact absurd enough₂ (few₁ best₂ member₂)
  · exact absurd enough₁ (few₂ best₁ member₁)
  · rw [some₁, some₂, le_antisymm (most₂ best₁ member₁) (most₁ best₂ member₂)]

def keepLonger (allowed : Int) (len : Nat) (entry : Option Nat) : Option Nat :=
  if allowed ≤ len then
    match entry with
    | none => some len
    | some old => if old < len then some len else some old
  else entry

theorem IsBest.append {lengths : List Nat} {entry : Option Nat} (len : Nat)
    (isBest : IsBest allowed lengths entry) :
    IsBest allowed (lengths ++ [len]) (keepLonger allowed len entry) := by
  unfold keepLonger
  rcases isBest with ⟨rfl, few⟩ | ⟨best, rfl, member, enough, most⟩
  · split
    case isTrue isAllowed =>
      refine Or.inr ⟨len, rfl, by simp, isAllowed, ?_⟩
      intro other inLengths
      rcases mem_append.mp inLengths with before | last
      · have := few other before
        omega
      · rw [mem_singleton.mp last]
    case isFalse notAllowed =>
      refine Or.inl ⟨rfl, ?_⟩
      intro other inLengths
      rcases mem_append.mp inLengths with before | last
      · exact few other before
      · rwa [mem_singleton.mp last]
  · have kept : len ≤ best → IsBest allowed (lengths ++ [len]) (some best) := by
      intro notMore
      refine Or.inr ⟨best, rfl, mem_append_left _ member, enough, ?_⟩
      intro other inLengths
      rcases mem_append.mp inLengths with before | last
      · exact most other before
      · rwa [mem_singleton.mp last]
    split
    case isTrue isAllowed =>
      dsimp only
      split
      case isTrue more =>
        refine Or.inr ⟨len, rfl, by simp, isAllowed, ?_⟩
        intro other inLengths
        rcases mem_append.mp inLengths with before | last
        · exact (most other before).trans more.le
        · rw [mem_singleton.mp last]
      case isFalse notMore => exact kept (by omega)
    case isFalse notAllowed => exact kept (by omega)

theorem lookup_recordRepeat {rat : Nat → Option Token} {n : Nat} {counts : List Nat}
    {table : List (Token × Nat)} {token : Token} (read : rat (n - 2 - i) = some token) (t : Token) :
    (recordRepeat rat n allowed counts table i).lookup t =
      if token = t then keepLonger allowed (counts.getD i 0) (table.lookup t)
      else table.lookup t := by
  simp only [recordRepeat, keepLonger, read]
  by_cases same : token = t
  · subst same
    rw [if_pos rfl]
    split
    case isTrue =>
      cases found : table.lookup token with
      | none => simp
      | some old =>
        dsimp only
        split
        · simp
        · exact found
    case isFalse => rfl
  · split
    case isTrue =>
      cases found : table.lookup token with
      | none => exact lookup_assign_of_ne (Ne.symm same) _ _
      | some old =>
        dsimp only
        split
        · exact lookup_assign_of_ne (Ne.symm same) _ _
        · rfl
    case isFalse => rfl

theorem recordRepeat_isBest (smpl : Dry) (allowed : Int) (limit : Nat) (t : Token)
    {places : Nat} (inside : places ≤ smpl.lastNRepeat - 1) :
    IsBest allowed (repeatLengths smpl.history limit t places)
      (((List.range places).foldl (recordRepeat smpl.lastTokens.rat smpl.lastNRepeat allowed
        (repeatCounts smpl.lastTokens.rat smpl.lastNRepeat limit)) []).lookup t) := by
  induction places with
  | zero => exact Or.inl ⟨rfl, by simp [repeatLengths]⟩
  | succ places ih =>
    have before := ih (by omega)
    have within : places + 1 < smpl.history.length := by
      rw [Dry.length_history]
      omega
    have index : smpl.lastNRepeat - 1 - (smpl.lastNRepeat - 2 - places) = places + 1 := by omega
    have read : smpl.lastTokens.rat (smpl.lastNRepeat - 2 - places) =
        some smpl.history[places + 1] := by
      rw [Dry.rat_eq_getElem? (by omega), index, List.getElem?_eq_getElem within]
    have count := repeatCounts_getD smpl limit (show places + 1 < _ by omega)
    rw [range_succ, foldl_append, foldl_cons, foldl_nil,
      lookup_recordRepeat read, count]
    by_cases mine : smpl.history[places + 1] = t
    · have grown : repeatLengths smpl.history limit t (places + 1) =
          repeatLengths smpl.history limit t places ++
            [min limit (commonSuffix (smpl.history.take (places + 1)) smpl.history)] := by
        have picked : smpl.history[places + 1]? = some t := by
          rw [List.getElem?_eq_getElem within, mine]
        simp [repeatLengths, range_succ, picked]
      rw [if_pos mine, grown]
      exact before.append _
    · have same : repeatLengths smpl.history limit t (places + 1) =
          repeatLengths smpl.history limit t places := by
        have skipped : smpl.history[places + 1]? ≠ some t := by
          rw [List.getElem?_eq_getElem within]
          simpa using mine
        simp [repeatLengths, range_succ, skipped]
      rw [if_neg mine, same]
      exact before

theorem maxTokenRepeat_eq (smpl : Dry) (allowed : Int) (limit : Nat) (t : Token) :
    (maxTokenRepeat smpl.lastTokens.rat smpl.lastNRepeat allowed
      (repeatCounts smpl.lastTokens.rat smpl.lastNRepeat limit)).lookup t =
      naiveRepeat smpl.history allowed limit t := by
  have best := recordRepeat_isBest smpl allowed limit t le_rfl
  refine best.unique ?_
  rw [naiveRepeat, Dry.length_history]
  exact isBest_max allowed _

theorem naiveRepeat_few {h : List Token} {limit : Nat} (few : limit < allowed) (t : Token) :
    naiveRepeat h allowed limit t = none := by
  have best := isBest_max allowed (repeatLengths h limit t (h.length - 1))
  rcases best with ⟨none, -⟩ | ⟨best, -, member, enough, -⟩
  · exact none
  · obtain ⟨j, -, same⟩ := mem_map.mp member
    omega

section

variable {smpl : Dry}

def Dry.Enabled (smpl : Dry) : Prop :=
  smpl.dryMultiplier ≠ 0 ∧ 1 ≤ smpl.dryBase ∧ smpl.dryPenaltyLastN ≠ 0

theorem Dry.Enabled.not_off (enabled : smpl.Enabled) :
    ¬(smpl.dryMultiplier = 0 ∨ smpl.dryBase < 1 ∨ smpl.dryPenaltyLastN = 0) := by
  rintro (off | small | none)
  · exact enabled.1 off
  · exact absurd enabled.2.1 (not_le.mpr small)
  · exact enabled.2.2 none

/-- The ring buffer holds the last tokens since the reset. -/
theorem accepts_after_reset (enabled : smpl.Enabled) {tokens : List Token} {final : Dry}
    (accepted : tokens.foldlM Dry.accept smpl.reset = some final) :
    final.lastTokens.toVector =
      tokens.drop (tokens.length - smpl.lastTokens.capacity) := by
  have pushes : ∀ (start : Dry), start.Enabled → tokens.foldlM Dry.accept start = some final →
      tokens.foldlM RingBuffer.pushBack start.lastTokens = some final.lastTokens := by
    clear accepted
    induction tokens with
    | nil =>
      intro start _ done
      rw [foldlM_nil, Option.pure_def, Option.some.injEq] at done ⊢
      rw [done]
    | cons token tokens ih =>
      intro start on accepted
      rw [foldlM_cons] at ⊢
      obtain ⟨next, first, rest⟩ := Option.bind_eq_some_iff.mp accepted
      rw [Dry.accept, if_neg on.not_off] at first
      obtain ⟨pushed, success, rfl⟩ := Option.map_eq_some_iff.mp first
      rw [success]
      exact ih { start with lastTokens := pushed } on rest
  have run := RingBuffer.toVector_pushes (pushes smpl.reset enabled accepted)
  have cleared : smpl.reset.lastTokens.toVector = [] := RingBuffer.toVector_clear _
  have fresh : smpl.reset.lastTokens.sz = 0 := rfl
  rwa [cleared, fresh, zero_add] at run

end

/-- After `llama_sampler_dry_apply` the table of repetitions holds, for every token, the
longest repetition that it would continue, cut off at the last sequence breaker, where that
reaches the allowed length. -/
theorem dry_table_eq (log : ℚ → ℚ) (smpl : Dry) (cur : TokenDataArray)
    (enabled : smpl.Enabled) (long : smpl.dryAllowedLength < smpl.lastNRepeat) :
    Dry.IsRepLimit smpl.history smpl.dryProcessedBreakers smpl.repLimit ∧
      ∀ t, (smpl.apply log cur).1.dryMaxTokenRepeat.lookup t =
        naiveRepeat smpl.history smpl.dryAllowedLength smpl.repLimit t := by
  refine ⟨smpl.repLimit_isRepLimit, fun t => ?_⟩
  rw [Dry.apply, if_neg enabled.not_off]
  rw [if_neg (not_le.mpr long)]
  split
  case isTrue few => exact (naiveRepeat_few few t).symm
  case isFalse => exact maxTokenRepeat_eq smpl smpl.dryAllowedLength smpl.repLimit t

def repeatingDry : Dry where
  totalContextSize := 8
  dryMultiplier := 1
  dryBase := 2
  dryAllowedLength := 1
  dryPenaltyLastN := -1
  dryProcessedBreakers := [(9, [])]
  dryRepeatCount := []
  dryMaxTokenRepeat := []
  lastTokens :=
    { capacity := 4, sz := 4, first := 0, pos := 0, data := [1, 2, 1, 2], room := rfl
      fits := le_rfl, next := rfl }

theorem accepts_after_reset_repeating :
    ∃ final, [5, 6, 7, 8, 9].foldlM Dry.accept repeatingDry.reset = some final ∧
      final.lastTokens.toVector = [6, 7, 8, 9] := by
  obtain ⟨final, accepted⟩ := Option.isSome_iff_exists.mp
    (show ([5, 6, 7, 8, 9].foldlM Dry.accept repeatingDry.reset).isSome = true by decide)
  exact ⟨final, accepted, @accepts_after_reset repeatingDry
    ⟨one_ne_zero, by norm_num [repeatingDry], by decide⟩ _ _ accepted⟩

theorem dry_table_repeating :
    (repeatingDry.apply id { data := [], sorted := false }).1.dryMaxTokenRepeat.lookup 1 =
      some 2 :=
  ((dry_table_eq id repeatingDry { data := [], sorted := false }
    ⟨one_ne_zero, by norm_num [repeatingDry], by decide⟩ (by decide)).2 1).trans (by decide)

end LlamaCpp.Samplers
