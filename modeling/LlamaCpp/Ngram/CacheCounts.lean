import LlamaCpp.Ngram.Cache
import Mathlib.Data.List.GetD

/-!
# What the cache counts

A cache that is updated after each chunk counts every position once for each size, and a
merge adds the counts.
-/

set_option autoImplicit false

namespace LlamaCpp.Ngram

open LlamaCpp.Lib List

def CachePart.count (part : CachePart) (token : Token) : Int := (part.lookup token).getD 0

def NgramCache.count (cache : NgramCache) (ngram : CommonNgram) (token : Token) : Int :=
  CachePart.count ((cache.lookup ngram).getD ∅) token

def NgramCache.Positive (cache : NgramCache) : Prop :=
  ∀ ngram part, cache.lookup ngram = some part →
    (∃ token, (part.lookup token).isSome) ∧ ∀ token n, part.lookup token = some n → 0 < n

def NgramCache.Same (cache other : NgramCache) : Prop :=
  ∀ ngram, (cache.lookup ngram).isSome = (other.lookup ngram).isSome ∧
    ∀ token, (cache.lookup ngram).bind (·.lookup token) = (other.lookup ngram).bind (·.lookup token)

def followed (inp : List Token) (ngram : CommonNgram) (token : Token) (ngramSize : Nat) : Nat :=
  (List.range' ngramSize (inp.length - ngramSize)).countP fun i =>
    decide (ngramBefore inp ngramSize i = ngram ∧ inp.getD i tokenNull = token)

/-- The update after each chunk, from a cache of the tokens `inp` on. -/
def updateChunks (ngramMin ngramMax : Nat) : NgramCache → List Token → List (List Token) → NgramCache
  | cache, _, [] => cache
  | cache, inp, chunk :: rest =>
    updateChunks ngramMin ngramMax
      (cacheUpdate cache ngramMin ngramMax (inp ++ chunk) chunk.length) (inp ++ chunk) rest

variable {cache other : NgramCache} {part : CachePart} {inp chunk : List Token}
variable {ngramMin ngramMax : Nat}

theorem CachePart.lookup_add (part : CachePart) (token t : Token) (n : Int) :
    (part.add token n).lookup t =
      if t = token then some (part.count token + n) else part.lookup t := by
  unfold CachePart.add CachePart.count
  split_ifs with same
  · subst same
    cases part.lookup t <;> simp
  · cases part.lookup token <;> simp [same]

theorem CachePart.count_add (part : CachePart) (token t : Token) (n : Int) :
    (part.add token n).count t = part.count t + if t = token then n else 0 := by
  rw [CachePart.count, lookup_add]
  split_ifs with same
  · simp [same]
  · simp [CachePart.count]

theorem countToken_eq (cache : NgramCache) (ngram : CommonNgram) (token : Token) :
    countToken cache ngram token =
      cache.insert ngram (CachePart.add ((cache.lookup ngram).getD ∅) token 1) := by
  unfold countToken
  cases cache.lookup ngram <;> rfl

theorem count_insert (cache : NgramCache) (ngram g : CommonNgram) (part : CachePart) (t : Token) :
    NgramCache.count (cache.insert ngram part) g t =
      if g = ngram then part.count t else cache.count g t := by
  unfold NgramCache.count
  split_ifs with same
  · rw [same, AList.lookup_insert, Option.getD_some]
  · rw [AList.lookup_insert_ne same]

theorem count_countToken (cache : NgramCache) (ngram g : CommonNgram) (token t : Token) :
    NgramCache.count (countToken cache ngram token) g t =
      cache.count g t + if ngram = g ∧ token = t then 1 else 0 := by
  rw [countToken_eq, count_insert, CachePart.count_add]
  by_cases same : g = ngram
  · subst same
    simp [NgramCache.count, eq_comm]
  · simp [same, Ne.symm same]

section

variable (positive : cache.Positive)
include positive

theorem NgramCache.Positive.countToken (ngram : CommonNgram)
    (token : Token) : NgramCache.Positive (countToken cache ngram token) := by
  intro g part found
  rw [countToken_eq] at found
  by_cases same : g = ngram
  · rw [same, AList.lookup_insert] at found
    cases found
    refine ⟨⟨token, by simp [CachePart.lookup_add]⟩, fun t n stored => ?_⟩
    have old : ∀ t n, AList.lookup t ((cache.lookup ngram).getD ∅) = some n → 0 < n := by
      cases before : cache.lookup ngram with
      | none => simp
      | some part => exact (positive ngram part before).2
    rw [CachePart.lookup_add] at stored
    split_ifs at stored
    · cases stored
      rw [CachePart.count]
      cases before : AList.lookup token ((cache.lookup ngram).getD ∅) with
      | none => simp
      | some m =>
        have := old token m before
        simp only [Option.getD_some]
        omega
    · exact old t n stored
  · rw [AList.lookup_insert_ne same] at found
    exact positive g part found

theorem NgramCache.Positive.stored (g : CommonNgram) (t : Token) :
    (cache.lookup g).bind (·.lookup t) =
      if cache.count g t = 0 then none else some (cache.count g t) := by
  unfold NgramCache.count CachePart.count
  cases found : cache.lookup g with
  | none => simp
  | some part =>
    cases stored : part.lookup t with
    | none => simp [stored]
    | some n =>
      have := (positive g part found).2 t n stored
      simp [stored, this.ne']

theorem NgramCache.Positive.isSome (g : CommonNgram) :
    (cache.lookup g).isSome = true ↔ ∃ t, cache.count g t ≠ 0 := by
  cases found : cache.lookup g with
  | none => simp [NgramCache.count, CachePart.count, found]
  | some part =>
    obtain ⟨⟨t, stored⟩, above⟩ := positive g part found
    obtain ⟨n, stored⟩ := Option.isSome_iff_exists.mp stored
    refine iff_of_true rfl ⟨t, ?_⟩
    simp [NgramCache.count, CachePart.count, found, stored, (above t n stored).ne']

theorem NgramCache.Same.of_count (positive_ : other.Positive)
    (counts : ∀ g t, cache.count g t = other.count g t) : cache.Same other := by
  intro g
  refine ⟨Bool.eq_iff_iff.mpr ?_, fun t => ?_⟩
  · rw [positive.isSome, positive_.isSome]
    simp [counts]
  · rw [positive.stored, positive_.stored, counts]

end

theorem updateSize_count (nnew ngramSize : Nat) (g : CommonNgram) (t : Token) :
    NgramCache.count (updateSize inp nnew cache ngramSize) g t = cache.count g t +
      (List.range' (max (inp.length - nnew) ngramSize)
        (inp.length - max (inp.length - nnew) ngramSize)).countP fun i =>
          decide (ngramBefore inp ngramSize i = g ∧ inp.getD i tokenNull = t) := by
  unfold updateSize
  dsimp only
  generalize List.range' _ _ = positions
  induction positions generalizing cache with
  | nil => simp
  | cons i positions ih =>
    rw [foldl_cons, ih, count_countToken, countP_cons]
    simp only [decide_eq_true_eq]
    split_ifs <;> omega

theorem cacheUpdate_positive (positive : cache.Positive) (nnew : Nat) :
    (cacheUpdate cache ngramMin ngramMax inp nnew).Positive := by
  have folds : ∀ {α : Type} (next : NgramCache → α → NgramCache), (∀ cache a, cache.Positive →
      (next cache a).Positive) → ∀ (l : List α) cache, cache.Positive → (l.foldl next cache).Positive := by
    intro α next keeps l
    induction l with
    | nil => exact fun _ => id
    | cons a l ih => exact fun cache positive => ih _ (keeps cache a positive)
  refine folds _ (fun cache size positive => ?_) _ cache positive
  exact folds _ (fun cache i positive => positive.countToken _ _) _ cache positive

theorem ngramBefore_append {ngramSize i : Nat} (sized : ngramSize ≤ i) (inside : i ≤ inp.length) :
    ngramBefore (inp ++ chunk) ngramSize i = ngramBefore inp ngramSize i := by
  funext k
  simp only [ngramBefore, CommonNgram.ofInput, getD_eq_getElem?_getD, List.getElem?_drop]
  split_ifs with below
  · rw [List.getElem?_append_left (by omega)]
  · rfl

theorem followed_append (g : CommonNgram) (t : Token) (ngramSize : Nat) :
    followed (inp ++ chunk) g t ngramSize = followed inp g t ngramSize +
      (List.range' (max inp.length ngramSize)
        ((inp ++ chunk).length - max inp.length ngramSize)).countP fun i =>
          decide (ngramBefore (inp ++ chunk) ngramSize i = g ∧ (inp ++ chunk).getD i tokenNull = t) := by
  have old : followed inp g t ngramSize = (List.range' ngramSize (inp.length - ngramSize)).countP
      fun i => decide (ngramBefore (inp ++ chunk) ngramSize i = g ∧
        (inp ++ chunk).getD i tokenNull = t) := by
    refine countP_congr fun i member => ?_
    rw [mem_range'_1] at member
    rw [ngramBefore_append member.1 (by omega), getD_append _ _ _ _ (by omega)]
  rw [old, followed, ← countP_append]
  by_cases short : inp.length ≤ ngramSize
  · simp [Nat.sub_eq_zero_of_le short, max_eq_right short]
  · obtain ⟨m, length⟩ := Nat.exists_eq_add_of_lt (not_le.mp short)
    rw [max_eq_left (by omega), length_append, Nat.add_sub_cancel_left,
      show inp.length + chunk.length - ngramSize = m + 1 + chunk.length by omega,
      show inp.length - ngramSize = m + 1 by omega, ← range'_append_1,
      show ngramSize + (m + 1) = inp.length by omega]

def NgramCache.Counts (cache : NgramCache) (ngramMin ngramMax : Nat) (inp : List Token) : Prop :=
  ∀ g t, cache.count g t =
    ((List.range' ngramMin (ngramMax + 1 - ngramMin)).map (followed inp g t)).sum

theorem cacheUpdate_counts (counts : cache.Counts ngramMin ngramMax inp) :
    (cacheUpdate cache ngramMin ngramMax (inp ++ chunk) chunk.length).Counts ngramMin ngramMax
      (inp ++ chunk) := by
  intro g t
  have before : (inp ++ chunk).length - chunk.length = inp.length := by simp
  have sizes : ∀ (sizes : List Nat) (cache : NgramCache),
      NgramCache.count (sizes.foldl (updateSize (inp ++ chunk) chunk.length) cache) g t +
        (sizes.map (followed inp g t)).sum =
        cache.count g t + (sizes.map (followed (inp ++ chunk) g t)).sum := by
    intro sizes
    induction sizes with
    | nil => simp
    | cons size sizes ih =>
      intro cache
      have rest := ih (updateSize (inp ++ chunk) chunk.length cache size)
      have here := @followed_append inp chunk g t size
      rw [updateSize_count, before] at rest
      simp only [foldl_cons, map_cons, sum_cons]
      omega
  have all := sizes (List.range' ngramMin (ngramMax + 1 - ngramMin)) cache
  rw [counts g t] at all
  rw [cacheUpdate]
  omega

theorem updateChunks_counts (chunks : List (List Token)) (positive : cache.Positive)
    (counts : cache.Counts ngramMin ngramMax inp) :
    (updateChunks ngramMin ngramMax cache inp chunks).Positive ∧
      (updateChunks ngramMin ngramMax cache inp chunks).Counts ngramMin ngramMax
        (inp ++ chunks.flatten) := by
  induction chunks generalizing cache inp with
  | nil =>
    rw [flatten_nil, append_nil]
    exact ⟨positive, counts⟩
  | cons chunk chunks ih =>
    rw [flatten_cons, ← append_assoc]
    exact ih (cacheUpdate_positive positive _) (cacheUpdate_counts counts)

theorem ngramBefore_eq {word : List Token} {ngramSize i : Nat} (tokens : tokenNull ∉ inp)
    (word_ : tokenNull ∉ word) (small : word.length ≤ ngramMaxSize) (sized : ngramSize ≤ ngramMaxSize)
    (before : ngramSize ≤ i) (inside : i ≤ inp.length) :
    ngramBefore inp ngramSize i = .ofInput word word.length ↔
      ngramSize = word.length ∧ (inp.drop (i - ngramSize)).take ngramSize = word := by
  have read : ∀ (l : List Token) k, tokenNull ∉ l → k < l.length → l.getD k tokenNull ≠ tokenNull := by
    intro l k absent here null
    rw [getD_eq_getElem _ _ here] at null
    exact absent (null ▸ getElem_mem here)
  have rest : tokenNull ∉ inp.drop (i - ngramSize) := fun member => tokens (mem_of_mem_drop member)
  have length : ngramSize ≤ (inp.drop (i - ngramSize)).length := by
    rw [length_drop]
    omega
  constructor
  · intro same
    have sizes : ngramSize = word.length := by
      rcases lt_trichotomy ngramSize word.length with less | equal | more
      · have here := congrFun same ⟨ngramSize, by omega⟩
        simp only [ngramBefore, CommonNgram.ofInput, lt_irrefl, if_pos less] at here
        exact absurd here.symm (read word _ word_ less)
      · exact equal
      · have here := congrFun same ⟨word.length, by omega⟩
        simp only [ngramBefore, CommonNgram.ofInput, lt_irrefl, if_pos more] at here
        exact absurd here (read _ _ rest (by omega))
    refine ⟨sizes, ext_getElem (by rw [length_take]; omega) fun k inTake inWord => ?_⟩
    have here := congrFun same ⟨k, by omega⟩
    simp only [ngramBefore, CommonNgram.ofInput, if_pos inWord] at here
    rw [if_pos (by omega), getD_eq_getElem _ _ (by omega), getD_eq_getElem _ _ inWord] at here
    rw [getElem_take, here]
  · rintro ⟨rfl, same⟩
    funext k
    simp only [ngramBefore, CommonNgram.ofInput]
    split_ifs with below
    · conv_rhs => rw [← same]
      simp [below]
    · rfl

theorem followed_word {word : List Token} (tokens : tokenNull ∉ inp) (word_ : tokenNull ∉ word)
    (small : word.length ≤ ngramMaxSize) (t : Token) {ngramSize : Nat}
    (sized : ngramSize ≤ ngramMaxSize) :
    followed inp (.ofInput word word.length) t ngramSize = if ngramSize = word.length then
      (List.range' word.length (inp.length - word.length)).countP fun i =>
        decide ((inp.drop (i - word.length)).take word.length = word ∧ inp.getD i tokenNull = t)
      else 0 := by
  have at_ : ∀ i ∈ List.range' ngramSize (inp.length - ngramSize), _ := fun i member =>
    ngramBefore_eq tokens word_ small sized (mem_range'_1.mp member).1
      (by have := mem_range'_1.mp member; omega)
  split_ifs with same
  · subst same
    exact countP_congr fun i member => by simp [at_ i member]
  · exact countP_eq_zero.mpr fun i member => by simp [at_ i member, same]

theorem mergePart_count {l : List (Sigma fun _ : Token => Int)} (nodup : l.NodupKeys)
    (positive : ∀ e ∈ l, 0 < e.2) (part : CachePart) : ∃ merged, mergePart l part = .ok merged ∧
      ∀ t, merged.count t = part.count t + (l.dlookup t).getD 0 := by
  induction l generalizing part with
  | nil => exact ⟨part, rfl, by simp⟩
  | cons e l ih =>
    obtain ⟨token, n⟩ := e
    rw [nodupKeys_cons] at nodup
    obtain ⟨merged, ran, counts⟩ := ih nodup.2 (fun e member => positive e
      (mem_cons_of_mem _ member)) (part.add token n)
    refine ⟨merged, by rw [mergePart, if_pos (positive _ mem_cons_self), ran], fun t => ?_⟩
    rw [counts, CachePart.count_add]
    by_cases same : t = token
    · subst same
      simp [dlookup_eq_none.mpr nodup.1]
    · simp [same]

theorem mergeEntries_count {l : List (Sigma fun _ : CommonNgram => CachePart)} (nodup : l.NodupKeys)
    (positive : ∀ e ∈ l, ∀ t n, e.2.lookup t = some n → 0 < n) (target : NgramCache) :
    ∃ merged, mergeEntries l target = .ok merged ∧ ∀ g t,
      NgramCache.count merged g t = target.count g t + CachePart.count ((l.dlookup g).getD ∅) t := by
  induction l generalizing target with
  | nil => exact ⟨target, rfl, fun g t => by simp [CachePart.count]⟩
  | cons e l ih =>
    obtain ⟨ngram, part⟩ := e
    rw [nodupKeys_cons] at nodup
    have next : ∃ merged, mergeEntries (⟨ngram, part⟩ :: l) target =
        mergeEntries l (target.insert ngram merged) ∧
          ∀ t, merged.count t = target.count ngram t + part.count t := by
      rw [mergeEntries]
      cases found : target.lookup ngram with
      | none => exact ⟨part, rfl, fun t => by simp [NgramCache.count, CachePart.count, found]⟩
      | some old =>
        obtain ⟨merged, ran, counts⟩ := mergePart_count part.nodupKeys (fun e member =>
          positive _ mem_cons_self e.1 e.2 (AList.mem_lookup_iff.mpr member)) old
        refine ⟨merged, by dsimp only; rw [ran]; rfl, fun t => ?_⟩
        rw [counts t, NgramCache.count, found]
        rfl
    obtain ⟨part_, stepped, partCounts⟩ := next
    obtain ⟨merged, ran, counts⟩ := ih nodup.2 (fun e member => positive e
      (mem_cons_of_mem _ member)) (target.insert ngram part_)
    refine ⟨merged, stepped.trans ran, fun g t => ?_⟩
    rw [counts, count_insert]
    by_cases same : g = ngram
    · subst same
      rw [partCounts, dlookup_eq_none.mpr nodup.1]
      simp [CachePart.count]
    · simp [same]

/-- The cache built in chunks is the one built at once; for sequences of real tokens it counts the
positions where each n-gram is followed by each token; and a merge of it adds its counts. -/
theorem updateChunks_occurrences (sizes : 1 ≤ ngramMin ∧ ngramMin ≤ ngramMax ∧ ngramMax ≤ ngramMaxSize)
    (chunks : List (List Token)) :
    let inp := chunks.flatten
    let cache := updateChunks ngramMin ngramMax ∅ [] chunks
    cache.Same (cacheUpdate ∅ ngramMin ngramMax inp inp.length) ∧
    (∀ g t, cache.count g t =
      ((List.range' ngramMin (ngramMax + 1 - ngramMin)).map (followed inp g t)).sum) ∧
    (tokenNull ∉ inp → ∀ word t, tokenNull ∉ word → ngramMin ≤ word.length → word.length ≤ ngramMax →
      cache.count (.ofInput word word.length) t =
        (List.range' word.length (inp.length - word.length)).countP fun i =>
          decide ((inp.drop (i - word.length)).take word.length = word ∧ inp.getD i tokenNull = t)) ∧
    ∀ target, ∃ merged, cacheMerge target cache = .ok merged ∧ ∀ g t,
      NgramCache.count merged g t = NgramCache.count target g t + cache.count g t := by
  have empty : NgramCache.Positive ∅ := by
    intro g part found
    cases found
  have none_ : NgramCache.Counts ∅ ngramMin ngramMax [] := by
    intro g t
    have zero : followed [] g t = fun _ => 0 := funext fun size => by simp [followed]
    simp [NgramCache.count, CachePart.count, zero]
  obtain ⟨positive, counts⟩ := updateChunks_counts chunks empty none_
  have whole := @cacheUpdate_counts _ _ chunks.flatten _ _ none_
  simp only [nil_append] at counts
  refine ⟨.of_count positive (cacheUpdate_positive empty _) fun g t => (counts g t).trans (whole g t).symm,
    counts, fun tokens word t word_ above below => ?_, fun target => ?_⟩
  · rw [counts, sum_map_eq_nsmul_single word.length, count_eq_one_of_mem nodup_range'
      (by rw [mem_range'_1]; omega), one_nsmul, followed_word tokens word_ (by omega) t (by omega),
      if_pos rfl]
    intro size other member
    rw [mem_range'_1] at member
    rw [followed_word tokens word_ (by omega) t (by omega), if_neg other]
  · obtain ⟨merged, ran, adds⟩ := mergeEntries_count (AList.nodupKeys _) (fun e member =>
      (positive e.1 e.2 (AList.mem_lookup_iff.mpr member)).2) target
    exact ⟨merged, ran, adds⟩

/-- Two chunks, the n-gram of the second reaching back into the first. -/
theorem updateChunks_occurrences_at_two :
    NgramCache.count (updateChunks 1 2 ∅ [] [[5, 6], [7]]) (.ofInput [5, 6] 2) 7 = 1 :=
  ((updateChunks_occurrences (by decide) [[5, 6], [7]]).2.2.1 (by decide) [5, 6] 7 (by decide)
    (by decide) (by decide)).trans (by decide)

end LlamaCpp.Ngram
