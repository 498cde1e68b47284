import LlamaCpp.Ngram.Map
import Mathlib.Algebra.Ring.Int.Defs
import Mathlib.Data.Fintype.Pi
import Mathlib.Data.List.AList

/-!
# The cache of n-grams

For each n-gram the tokens seen after it, with their counts.  The maps of the source have no
order of their own; here an entry stands where it was added last.
-/

set_option autoImplicit false

namespace LlamaCpp.Ngram

open LlamaCpp.Lib List

def ngramMaxSize : Nat := 4

def ngramStatic : Nat := 2

def tokenNull : Token := -1

/-- `common_ngram`, filled up with null tokens. -/
abbrev CommonNgram := Fin ngramMaxSize → Token

/-- The constructor from the first tokens of `input`. -/
def CommonNgram.ofInput (input : List Token) (ngramSize : Nat) : CommonNgram := fun i =>
  if i < ngramSize then input.getD i tokenNull else tokenNull

abbrev CachePart := AList fun _ : Token => Int

abbrev NgramCache := AList fun _ : CommonNgram => CachePart

/-- `emplace(token, count)` for a new token, `second += count` for one that is there. -/
def CachePart.add (part : CachePart) (token : Token) (count : Int) : CachePart :=
  match part.lookup token with
  | none => part.insert token count
  | some old => part.insert token (old + count)

/-- One iteration of the inner loop of `common_ngram_cache_update`. -/
def countToken (cache : NgramCache) (ngram : CommonNgram) (token : Token) : NgramCache :=
  match cache.lookup ngram with
  | none => cache.insert ngram (CachePart.add ∅ token 1)
  | some part => cache.insert ngram (part.add token 1)

/-- The n-gram before position `i`. -/
def ngramBefore (inp : List Token) (ngramSize i : Nat) : CommonNgram :=
  .ofInput (inp.drop (i - ngramSize)) ngramSize

/-- The inner loop, from `i_start` on. -/
def updateSize (inp : List Token) (nnew : Nat) (cache : NgramCache) (ngramSize : Nat) : NgramCache :=
  let iStart := max (inp.length - nnew) ngramSize
  (List.range' iStart (inp.length - iStart)).foldl
    (fun cache i => countToken cache (ngramBefore inp ngramSize i) (inp.getD i tokenNull)) cache

def cacheUpdate (cache : NgramCache) (ngramMin ngramMax : Nat) (inp : List Token) (nnew : Nat) :
    NgramCache :=
  (List.range' ngramMin (ngramMax + 1 - ngramMin)).foldl (updateSize inp nnew) cache

/-- The inner loop of `common_ngram_cache_merge`; every count is asserted to be positive. -/
def mergePart : List (Sigma fun _ : Token => Int) → CachePart → Checked CachePart
  | [], part => .ok part
  | ⟨token, count⟩ :: rest, part =>
    if 0 < count then mergePart rest (part.add token count) else .error .aborted

def mergeEntries : List (Sigma fun _ : CommonNgram => CachePart) → NgramCache → Checked NgramCache
  | [], target => .ok target
  | ⟨ngram, part⟩ :: rest, target =>
    match target.lookup ngram with
    | none => mergeEntries rest (target.insert ngram part)
    | some merged => do
      let merged ← mergePart part.entries merged
      mergeEntries rest (target.insert ngram merged)

def cacheMerge (target add : NgramCache) : Checked NgramCache := mergeEntries add.entries target

def sizeT (i : Int) : Nat := (i % 2 ^ 64).toNat

def getToken (inp draft : List Token) (i : Nat) : Checked Token :=
  if i < inp.length then readAt inp i else readAt draft (sizeT (1 + i - inp.length))

/-- The n-gram of `ngramSize` tokens that ends with the draft.  The sizes of both vectors fit `int`. -/
def ngramAtEnd (inp draft : List Token) (ngramSize : Nat) : Checked CommonNgram := do
  let ngramStart : Int := inp.length - ngramSize + draft.length - 1
  let tokens ← (List.range ngramSize).mapM fun (k : Nat) =>
    getToken inp draft (sizeT (ngramStart + k))
  return .ofInput tokens ngramSize

/-- `draft_min_sample_size_lax`, `draft_min_percent_lax` and their strict forms. -/
structure Thresholds where
  minSampleSize : List Int
  minPercent : List Int

def lax : Thresholds := ⟨[2, 2, 1, 1], [66, 50, 50, 50]⟩
def strict : Thresholds := ⟨[4, 3, 2, 2], [75, 66, 66, 66]⟩

/-- Enough samples, and enough of them for the token; `i` is the index of the size. -/
def Thresholds.met (t : Thresholds) (i : Nat) (maxCount sumCount : Int) : Bool :=
  decide (t.minSampleSize.getD i 0 ≤ sumCount ∧ t.minPercent.getD i 0 * sumCount ≤ 100 * maxCount)

def tryDraftStatic (ncStatic : NgramCache) (ngram : CommonNgram) : Token :=
  match ncStatic.lookup ngram with
  | none => tokenNull
  | some part =>
    let best := part.entries.foldl (fun (best : Token × Int) e =>
      if best.2 < e.2 then (e.1, e.2) else best) (tokenNull, 0)
    if lax.met (ngramStatic - 1) best.2 (part.entries.map Sigma.snd).sum then best.1 else tokenNull

/-- `try_draft` from a primary cache, weighed with the static counts: from the longest n-gram on. -/
def tryDraftFrom (ncPrimary : NgramCache) (partStatic : CachePart) (t : Thresholds) :
    List (CommonNgram × Nat) → Token
  | [] => tokenNull
  | (ngram, i) :: shorter =>
    match ncPrimary.lookup ngram with
    | none => tryDraftFrom ncPrimary partStatic t shorter
    | some part =>
      let best := part.entries.foldl (fun (best : Token × Int × Int) e =>
        let countStatic := ((partStatic.lookup e.1).map (100 * ·)).getD 1
        if best.2.1 * best.2.2 < e.2 * countStatic then (e.1, e.2, countStatic) else best)
        (tokenNull, 0, 0)
      -- a null token leaves the loop of the source running
      if t.met i best.2.1 (part.entries.map Sigma.snd).sum ∧ best.1 ≠ tokenNull then best.1
      else tryDraftFrom ncPrimary partStatic t shorter

def tryDraft (ncPrimary : NgramCache) (ngrams : List CommonNgram) (partStatic : CachePart)
    (t : Thresholds) : Token :=
  tryDraftFrom ncPrimary partStatic t ngrams.zipIdx.reverse

/-- The loop of `common_ngram_cache_draft`, while `left` tokens may be added. -/
def draftLoop (inp : List Token) (ngramMin ngramMax : Nat)
    (ncContext ncDynamic ncStatic : NgramCache) : Nat → List Token → Checked (List Token)
  | 0, draft => .ok draft
  | left + 1, draft => do
    let ngram ← ngramAtEnd inp draft ngramStatic
    let ngrams ← (List.range' ngramMin (ngramMax + 1 - ngramMin)).mapM (ngramAtEnd inp draft)
    let partStatic := (ncStatic.lookup ngram).getD ∅
    let fromContext := tryDraft ncContext ngrams partStatic lax
    let fromDynamic :=
      if fromContext = tokenNull then tryDraft ncDynamic ngrams partStatic strict else fromContext
    let drafted := if fromDynamic = tokenNull then tryDraftStatic ncStatic ngram else fromDynamic
    if drafted = tokenNull then return draft
    draftLoop inp ngramMin ngramMax ncContext ncDynamic ncStatic left (draft ++ [drafted])

def cacheDraft (inp draft : List Token) (nDraft : Int) (ngramMin ngramMax : Nat)
    (ncContext ncDynamic ncStatic : NgramCache) : Checked (List Token) :=
  if draft.length ≠ 1 then .error .aborted
  else if inp.length < ngramStatic then .ok draft
  else draftLoop inp ngramMin ngramMax ncContext ncDynamic ncStatic nDraft.toNat draft

section Reads

variable {inp draft : List Token} {ngramMin ngramMax : Nat}

theorem mapM_ok {α β : Type} {f : α → Checked β} {l : List α} (each : ∀ x ∈ l, ∃ y, f x = .ok y) :
    ∃ ys, l.mapM f = .ok ys := by
  induction l with
  | nil => exact ⟨[], rfl⟩
  | cons x l ih =>
    obtain ⟨y, here⟩ := each x mem_cons_self
    obtain ⟨ys, rest⟩ := ih fun x member => each x (mem_cons_of_mem _ member)
    exact ⟨y :: ys, by rw [mapM_cons, here, rest]; rfl⟩

theorem mapM_error {α β : Type} {f : α → Checked β} {l : List α} {fault : Fault}
    (each : ∀ x ∈ l, (∃ y, f x = .ok y) ∨ f x = .error fault) (one : ∃ x ∈ l, f x = .error fault) :
    l.mapM f = .error fault := by
  induction l with
  | nil => simp at one
  | cons x l ih =>
    rw [mapM_cons]
    rcases each x mem_cons_self with ⟨y, here⟩ | here
    · obtain ⟨z, member, fails⟩ := one
      have later : z ∈ l := (mem_cons.mp member).resolve_left fun same => by
        rw [same, here] at fails
        cases fails
      rw [here, ih (fun x member => each x (mem_cons_of_mem _ member)) ⟨z, later, fails⟩]
      rfl
    · rw [here]
      rfl

theorem readAt_eq (items : List Token) (i : Nat) :
    (i < items.length → ∃ item, readAt items i = .ok item) ∧
      (items.length ≤ i → readAt items i = .error .outOfBounds) := by
  constructor
  · intro inside
    exact ⟨items[i], by simp [readAt, inside]⟩
  · intro beyond
    simp [readAt, beyond]

theorem getToken_sizeT (some_ : 0 < inp.length) (fits : inp.length + draft.length < 2 ^ 32)
    (i : Int) :
    (0 ≤ i → i + 2 ≤ inp.length + draft.length → ∃ token, getToken inp draft (sizeT i) = .ok token) ∧
      (i < 0 → -(2 ^ 32) ≤ i → getToken inp draft (sizeT i) = .error .outOfBounds) := by
  constructor
  · intro nonneg inside
    have same : (sizeT i : Int) = i := by
      rw [sizeT]
      omega
    unfold getToken
    split
    · exact (readAt_eq inp _).1 ‹_›
    · refine (readAt_eq draft _).1 ?_
      rw [sizeT]
      omega
  · intro negative bounded
    have same : (sizeT i : Int) = i + 2 ^ 64 := by
      rw [sizeT]
      omega
    rw [getToken, if_neg (by omega)]
    refine (readAt_eq draft _).2 ?_
    rw [sizeT]
    omega

theorem ngramAtEnd_eq (some_ : 0 < inp.length) (fits : inp.length + draft.length < 2 ^ 31) (drafted : 1 ≤ draft.length)
    {ngramSize : Nat} (small : ngramSize ≤ ngramMaxSize) :
    (ngramSize + 1 ≤ inp.length + draft.length → ∃ ngram, ngramAtEnd inp draft ngramSize = .ok ngram) ∧
      (inp.length + draft.length < ngramSize + 1 →
        ngramAtEnd inp draft ngramSize = .error .outOfBounds) := by
  have reads := @getToken_sizeT _ draft some_ (by omega)
  rw [ngramMaxSize] at small
  constructor
  · intro long
    obtain ⟨tokens, read⟩ := mapM_ok (l := List.range ngramSize)
      (f := fun k : Nat => getToken inp draft (sizeT (inp.length - ngramSize + draft.length - 1 + k)))
      fun k member => (reads _).1 (by omega) (by rw [mem_range] at member; omega)
    exact ⟨.ofInput tokens ngramSize, by rw [ngramAtEnd, read]; rfl⟩
  · intro short
    have fails := mapM_error (l := List.range ngramSize)
      (f := fun k : Nat => getToken inp draft (sizeT (inp.length - ngramSize + draft.length - 1 + k)))
      (fun k member => ?_) ⟨0, by rw [mem_range]; omega, (reads _).2 (by omega) (by omega)⟩
    · rw [ngramAtEnd, fails]
      rfl
    · rw [mem_range] at member
      by_cases before : (inp.length : Int) - ngramSize + draft.length - 1 + k < 0
      · exact Or.inr ((reads _).2 before (by omega))
      · exact Or.inl ((reads _).1 (by omega) (by omega))

variable {ncContext ncDynamic ncStatic : NgramCache}

theorem draftLoop_inBounds (left : Nat) (long : ngramMax ≤ inp.length)
    (enough : ngramStatic ≤ inp.length) (small : ngramMax ≤ ngramMaxSize) (drafted : 1 ≤ draft.length)
    (fits : inp.length + draft.length + left < 2 ^ 31) :
    InBounds (draftLoop inp ngramMin ngramMax ncContext ncDynamic ncStatic left draft)
      fun _ => True := by
  have some_ : 0 < inp.length := lt_of_lt_of_le (by decide) enough
  induction left generalizing draft with
  | zero => exact inBounds_ok trivial
  | succ left ih =>
    obtain ⟨ngram, static⟩ := (ngramAtEnd_eq some_ (by omega) drafted (show ngramStatic ≤ ngramMaxSize by decide)).1 (by omega)
    obtain ⟨ngrams, context⟩ := mapM_ok (l := List.range' ngramMin (ngramMax + 1 - ngramMin))
      (f := ngramAtEnd inp draft) fun ngramSize member => by
        rw [mem_range'_1] at member
        exact (ngramAtEnd_eq some_ (by omega) drafted (by omega)).1 (by omega)
    have adds : ∀ drafted, InBounds (if drafted = tokenNull then pure draft else
        draftLoop inp ngramMin ngramMax ncContext ncDynamic ncStatic left (draft ++ [drafted]))
        fun _ => True := by
      intro drafted
      split
      · exact inBounds_ok trivial
      · exact ih (by simp) (by rw [length_append, length_singleton]; omega)
    rw [draftLoop, static, context]
    exact adds _

/-- The draft reads inside its vectors exactly when it adds nothing or the input is as long as
the longest n-gram. -/
theorem cacheDraft_inBounds_iff (last : Token) {nDraft : Int} (enough : ngramStatic ≤ inp.length)
    (ordered : 1 ≤ ngramMin ∧ ngramMin ≤ ngramMax ∧ ngramMax ≤ ngramMaxSize)
    (fits : inp.length + nDraft.toNat + 1 < 2 ^ 31) :
    InBounds (cacheDraft inp [last] nDraft ngramMin ngramMax ncContext ncDynamic ncStatic)
      (fun _ => True) ↔ nDraft ≤ 0 ∨ ngramMax ≤ inp.length := by
  have some_ : 0 < inp.length := lt_of_lt_of_le (by decide) enough
  have one : [last].length = 1 := rfl
  rw [cacheDraft, if_neg (not_lt.mpr enough)]
  constructor
  · intro safe
    by_contra both
    obtain ⟨left, count⟩ : ∃ left, nDraft.toNat = left + 1 := ⟨nDraft.toNat - 1, by omega⟩
    obtain ⟨ngram, static⟩ := (@ngramAtEnd_eq _ [last] some_ (by omega) one.ge _
      (show ngramStatic ≤ ngramMaxSize by decide)).1 (by omega)
    -- the first pass asks for the longest n-gram
    have reads : ∀ ngramSize ≤ ngramMaxSize, _ := fun ngramSize small =>
      @ngramAtEnd_eq inp [last] some_ (by omega) one.ge _ small
    have context := mapM_error (l := List.range' ngramMin (ngramMax + 1 - ngramMin))
      (fun ngramSize member => by
        rw [mem_range'_1] at member
        by_cases fits_ : ngramSize ≤ inp.length
        · exact Or.inl ((reads ngramSize (by omega)).1 (by omega))
        · exact Or.inr ((reads ngramSize (by omega)).2 (by omega)))
      ⟨ngramMax, by rw [mem_range'_1]; omega, (reads ngramMax ordered.2.2).2 (by omega)⟩
    rw [count, draftLoop, static, context] at safe
    exact safe
  · rintro (nothing | long)
    · rw [show nDraft.toNat = 0 by omega]
      exact inBounds_ok trivial
    · exact draftLoop_inBounds _ long enough ordered.2.2 one.ge (by omega)

/-- Four tokens are enough for n-grams of up to four. -/
theorem cacheDraft_inBounds_iff_at_four :
    InBounds (cacheDraft [5, 6, 7, 8] [9] 3 1 4 ∅ ∅ ∅) fun _ => True :=
  (cacheDraft_inBounds_iff 9 (by decide) (by decide) (by decide)).mpr (Or.inr (by decide))

/-- The guard lets two tokens pass, and the draft looks for the last three. -/
theorem cacheDraft_outOfBounds :
    ¬ ∀ (inp : List Token) (last : Token) (nDraft : Int) (ngramMin ngramMax : Nat)
      (ncContext ncDynamic ncStatic : NgramCache), ngramStatic ≤ inp.length →
      1 ≤ ngramMin ∧ ngramMin ≤ ngramMax ∧ ngramMax ≤ ngramMaxSize →
      InBounds (cacheDraft inp [last] nDraft ngramMin ngramMax ncContext ncDynamic ncStatic)
        fun _ => True := by
  intro claimed
  have safe := claimed [5, 6] 9 1 1 4 ∅ ∅ ∅ (by decide) (by decide)
  have fault : cacheDraft [5, 6] [9] 1 1 4 ∅ ∅ ∅ = .error .outOfBounds := by decide +kernel
  exact safe.not_outOfBounds fault

end Reads

end LlamaCpp.Ngram
