import LlamaCpp.Vocab.BpeRoundTrip
import LlamaCpp.Vocab.StPartition
import LlamaCpp.Vocab.Spm

/-!
# The queue against naive merging

Byte pair encoding tells an outdated candidate by its text.  The text of a symbol never moves, so
that is the same as telling it by its size, and both tokenizers end with the naive merges.
-/

set_option autoImplicit false

namespace LlamaCpp.Vocab

open LlamaCpp.Lib List

section

variable {vocab : BpeVocab}

def Bigram.candidate (bigram : Bigram) : Candidate Nat :=
  { left := bigram.left, right := bigram.right, size := bigram.size, key := bigram.rank }

theorem popMove_eq (queue : List Bigram) : popMove queue = popFirst Bigram.before queue := by
  induction queue with
  | nil => rfl
  | cons bigram rest ih =>
    rw [popMove, popFirst, ih]
    cases popFirst Bigram.before rest <;> rfl

/-- The session between two rounds; a bigram keeps the text that its symbols had. -/
structure WordInv (vocab : BpeVocab) (session : Session) : Prop where
  merges : MergeInv vocab.bpeRanks session.symbols (session.workQueue.map Bigram.candidate)
  texts : ∀ bigram ∈ session.workQueue,
    bigram.text = (symbolAt session.symbols bigram.left).text.take bigram.size
  noSpace : ∀ i, 0x20 ∉ (symbolAt session.symbols i).text

variable {session : Session} {word : Bytes}

theorem addNewBigram_fresh (linked : Linked session.symbols)
    (contiguous : Contiguous session.symbols) {left right : Option Nat}
    (follows : Follows session.symbols left right)
    (noSpace : ∀ i, 0x20 ∉ (symbolAt session.symbols i).text) :
    ∃ added, Vocab.addNewBigram vocab session left right =
        .ok { session with workQueue := session.workQueue ++ added } ∧
      added.map Bigram.candidate = fresh vocab.bpeRanks session.symbols left right ∧
      ∀ bigram ∈ added,
        bigram.text = (symbolAt session.symbols bigram.left).text.take bigram.size := by
  have free (i : Nat) : 0x20 ∉ (symbolAt session.symbols i).str :=
    fun member => noSpace i (mem_of_mem_take member)
  unfold Vocab.addNewBigram
  split
  · rename_i i j
    obtain ⟨live, next⟩ := follows i j rfl rfl
    have liveNext := (linked.next i j live next).1
    dsimp only
    rw [findBpeRank, if_neg (by simp [free]), fresh]
    cases vocab.bpeRanks (symbolAt session.symbols i).str (symbolAt session.symbols j).str with
    | none => exact ⟨[], by simp, rfl, by simp⟩
    | some rank =>
      refine ⟨_, rfl, ?_, ?_⟩
      · simp [Bigram.candidate, contiguous.length_str live, contiguous.length_str liveNext]
      · intro bigram member
        rw [mem_singleton.mp member, contiguous.length_str live,
          contiguous.length_str liveNext, contiguous.str_append live next]
  · rename_i missing
    refine ⟨[], by simp, ?_, by simp⟩
    unfold fresh
    split
    · rename_i i j
      exact absurd rfl (missing i j rfl)
    · rfl

theorem WordInv.text_eq_iff (inv : WordInv vocab session) {bigram : Bigram}
    (member : bigram ∈ session.workQueue) (liveLeft : Live session.symbols bigram.left)
    (liveRight : Live session.symbols bigram.right) :
    (symbolAt session.symbols bigram.left).str ++ (symbolAt session.symbols bigram.right).str =
        bigram.text ↔
      (symbolAt session.symbols bigram.left).n + (symbolAt session.symbols bigram.right).n =
        bigram.size := by
  have sound := inv.merges.sound _ (mem_map_of_mem member)
  have next := inv.merges.linked.next_of_adjacent liveLeft liveRight sound.adjacent
  have inside := inv.merges.contiguous.add_le liveLeft liveRight next
  have size : bigram.size ≤ _ := sound.size_le liveLeft liveRight
  rw [inv.merges.contiguous.str_append liveLeft next, inv.texts bigram member]
  constructor
  · intro same
    have lengths := congrArg List.length same
    rw [length_take_of_le inside, length_take_of_le (size.trans inside)] at lengths
    exact lengths
  · intro same
    rw [same]

theorem WordInv.mergeBigram {bigram : Bigram} {others : List Bigram} (inv : WordInv vocab session)
    (popped : popMove session.workQueue = some (bigram, others)) :
    ∃ next, Vocab.mergeBigram vocab { session with workQueue := others } bigram = .ok next ∧
      WordInv vocab next ∧ next.work < session.work ∧
      naiveMerge vocab.bpeRanks (symbolTexts next.symbols) =
        naiveMerge vocab.bpeRanks (symbolTexts session.symbols) := by
  rw [popMove_eq] at popped
  have perm := popFirst_perm popped
  have lengths := perm.length_eq
  rw [length_cons] at lengths
  have candidates : (bigram.candidate :: others.map Bigram.candidate).Perm
      (session.workQueue.map Bigram.candidate) := perm.map Bigram.candidate
  have isQueued := perm.subset mem_cons_self
  have stays {other : Bigram} (member : other ∈ others) : other ∈ session.workQueue :=
    perm.subset (mem_cons_of_mem _ member)
  have skips (outdated : ¬ bigram.candidate.Good session.symbols) :
      WordInv vocab { session with workQueue := others } ∧
        Session.work { session with workQueue := others } < session.work := by
    refine ⟨⟨inv.merges.skip candidates outdated, fun other member =>
      inv.texts other (stays member), inv.noSpace⟩, ?_⟩
    rw [Session.work, Session.work]
    dsimp only
    omega
  unfold Vocab.mergeBigram
  dsimp only
  split
  · rename_i gone
    obtain ⟨skipped, less⟩ := skips (by
      rintro ⟨liveLeft, liveRight, -⟩
      rcases gone with none_ | none_
      · exact ne_of_gt liveLeft none_
      · exact ne_of_gt liveRight none_)
    exact ⟨_, rfl, skipped, less, rfl⟩
  rename_i current
  rw [not_or] at current
  have liveLeft : Live session.symbols bigram.left := Nat.pos_of_ne_zero current.1
  have liveRight : Live session.symbols bigram.right := Nat.pos_of_ne_zero current.2
  have text_iff := inv.text_eq_iff isQueued liveLeft liveRight
  split
  · rename_i differ
    obtain ⟨skipped, less⟩ := skips fun good => differ (text_iff.mpr good.2.2)
    exact ⟨_, rfl, skipped, less, rfl⟩
  rename_i equal
  rw [not_not] at equal
  have changes := merged_mergeSymbols liveLeft.lt liveRight.lt
  have same := length_mergeSymbols session.symbols bigram.left bigram.right
  have adjacent := (inv.merges.sound _ (candidates.subset mem_cons_self)).adjacent
  have apart := Nat.ne_of_lt adjacent.1
  have live := changes.live_iff liveLeft apart
  obtain ⟨mergedInv, texts⟩ := inv.merges.merge candidates ⟨liveLeft, liveRight, text_iff.mp equal⟩
    (fun other member => by
      obtain ⟨item, inQueue, rfl⟩ := mem_map.mp member
      exact popFirst_candidate Bigram.candidate (fun _ _ => rfl) popped item inQueue)
    changes same
  have fewer := liveCount_lt same (fun i now => ((live i).mp now).1) liveRight
    fun now => ((live _).mp now).2 rfl
  have noSpace (i : Nat) :
      0x20 ∉ (symbolAt (mergeSymbols session.symbols bigram.left bigram.right) i).text := by
    rw [changes.text i]
    exact inv.noSpace i
  have onLeft := changes.follows_prev inv.merges.linked liveLeft liveRight adjacent
  have onRight := changes.follows_next liveLeft apart
  have text := changes.text
  generalize mergeSymbols session.symbols bigram.left bigram.right = merged at *
  obtain ⟨first, firstRun, firstFresh, firstTexts⟩ := @addNewBigram_fresh vocab
    { session with workQueue := others, symbols := merged } mergedInv.linked mergedInv.contiguous _
    _ onLeft noSpace
  obtain ⟨second, secondRun, secondFresh, secondTexts⟩ := @addNewBigram_fresh vocab
    { session with workQueue := others ++ first, symbols := merged } mergedInv.linked
    mergedInv.contiguous _ _ onRight noSpace
  refine ⟨_, by rw [firstRun, ok_bind, secondRun], ⟨?_, ?_, noSpace⟩, ?_, texts⟩
  · rw [map_append, map_append, firstFresh, secondFresh]
    exact mergedInv
  · intro other member
    rcases mem_append.mp member with earlier | isSecond
    · rcases mem_append.mp earlier with old | isFirst
      · rw [text, inv.texts other (stays old)]
      · exact firstTexts other isFirst
    · exact secondTexts other isSecond
  · have left := @length_fresh_le _ vocab.bpeRanks merged
      (symbolAt session.symbols bigram.left).prev (some bigram.left)
    have right := @length_fresh_le _ vocab.bpeRanks merged (some bigram.left)
      (symbolAt session.symbols bigram.right).next
    rw [← firstFresh, length_map] at left
    rw [← secondFresh, length_map] at right
    rw [Session.work, Session.work]
    simp only [length_append]
    omega

theorem WordInv.mergeLoop (inv : WordInv vocab session) {fuel : Nat}
    (enough : session.work ≤ fuel) : ∃ final, Vocab.mergeLoop vocab fuel session = .ok final ∧
      symbolTexts final.symbols = naiveMerge vocab.bpeRanks (symbolTexts session.symbols) := by
  have ends {last : Session} (lastInv : WordInv vocab last) (empty : last.workQueue = []) :
      symbolTexts last.symbols = naiveMerge vocab.bpeRanks (symbolTexts last.symbols) := by
    have merges := lastInv.merges
    rw [empty] at merges
    exact merges.done.symm
  induction fuel generalizing session with
  | zero =>
    have empty : session.workQueue = [] := by
      rw [Session.work] at enough
      exact length_eq_zero_iff.mp (by omega)
    exact ⟨session, rfl, ends inv empty⟩
  | succ fuel ih =>
    rw [Vocab.mergeLoop]
    cases popped : popMove session.workQueue with
    | none =>
      rw [popMove_eq] at popped
      exact ⟨session, rfl, ends inv (popFirst_none popped)⟩
    | some found =>
      obtain ⟨next, step, nextInv, less, texts⟩ := inv.mergeBigram popped
      rw [← texts]
      obtain ⟨final, run, result⟩ := ih nextInv (by omega)
      exact ⟨final, by dsimp only; rw [step, ok_bind, run], result⟩

theorem foldlM_addNewBigram {symbols : List Symbol} (chain : CharChain 0 word symbols)
    (noSpace : ∀ i, 0x20 ∉ (symbolAt symbols i).text) {queue : List Bigram}
    (texts : ∀ bigram ∈ queue, bigram.text = (symbolAt symbols bigram.left).text.take bigram.size)
    {places : List Nat} (inside : ∀ i ∈ places, i ∈ List.range' 1 (symbols.length - 1)) :
    ∃ added, places.foldlM (fun session i =>
        addNewBigram vocab session (some (i - 1)) (some i)) { symbols, workQueue := queue } =
          .ok { symbols, workQueue := queue ++ added } ∧
      added.map Bigram.candidate = seeds vocab.bpeRanks symbols places ∧
      ∀ bigram ∈ added, bigram.text = (symbolAt symbols bigram.left).text.take bigram.size := by
  induction places generalizing queue with
  | nil => exact ⟨[], by rw [append_nil]; rfl, rfl, by simp⟩
  | cons i rest ih =>
    obtain ⟨first, step, isFresh, firstTexts⟩ := @addNewBigram_fresh vocab
      { symbols, workQueue := queue } chain.linked chain.contiguous _ _
      (chain.follows (inside i mem_cons_self)) noSpace
    obtain ⟨others, run, seeded, otherTexts⟩ := @ih (queue ++ first)
      (fun bigram member => (mem_append.mp member).elim (texts bigram) (firstTexts bigram))
      fun j member => inside j (mem_cons_of_mem _ member)
    refine ⟨first ++ others, ?_, ?_, ?_⟩
    · rw [foldlM_cons, step, ok_bind, run, append_assoc]
    · rw [map_append, isFresh, seeded, seeds_cons]
    · exact fun bigram member =>
        (mem_append.mp member).elim (firstTexts bigram) (otherTexts bigram)

theorem CharChain.noSpace {symbols : List Symbol} (chain : CharChain 0 word symbols)
    (free : 0x20 ∉ word) (i : Nat) : 0x20 ∉ (symbolAt symbols i).text := by
  induction i with
  | zero => rwa [chain.head]
  | succ i ih =>
    by_cases inside : i + 1 < symbols.length
    · rw [← chain.next i inside]
      exact fun member => ih (mem_of_mem_drop member)
    · rw [symbolAt_of_le (Nat.le_of_not_lt inside)]
      exact not_mem_nil

/-- The words that are kept as they are: those that are a token, where merges are ignored, and the
runs of newlines of Gemma 4 that are one. -/
def KeptWhole (vocab : BpeVocab) (word : Bytes) : Prop :=
  (vocab.tokenToId word).isSome ∧
    (vocab.ignoreMerges = true ∨ vocab.isGemma4 = true ∧ ∀ c ∈ word, c = 10)

theorem wordSymbols_whole (whole : KeptWhole vocab word) :
    wordSymbols vocab word = [{ text := word, n := word.length }] := by
  obtain ⟨known, ignored | ⟨gemma4, newlines⟩⟩ := whole
  · exact if_pos ⟨ignored, known⟩
  · unfold wordSymbols
    split
    · rfl
    · exact if_pos ⟨gemma4, by simpa using newlines, known⟩

theorem wordSymbols_chars (merged : ¬ KeptWhole vocab word) :
    wordSymbols vocab word = charSymbols word.length 0 word := by
  unfold wordSymbols
  rw [if_neg, if_neg]
  · rintro ⟨gemma4, newlines, known⟩
    exact merged ⟨known, .inr ⟨gemma4, by simpa using newlines⟩⟩
  · exact fun ignored => merged ⟨ignored.2, .inl ignored.1⟩

theorem mergeWord_whole (nonempty : word ≠ []) (whole : KeptWhole vocab word) :
    mergeWord vocab word = .ok [word] := by
  have some_ : 0 < word.length := length_pos_iff.mpr nonempty
  rw [mergeWord, wordSymbols_whole whole]
  show Except.ok ((List.filter (fun symbol : Symbol => decide (0 < symbol.n))
    [{ text := word, n := word.length }]).map Symbol.str) = _
  rw [filter_cons, if_pos (decide_eq_true some_), filter_nil, map_singleton,
    Symbol.str, take_length]

theorem mergeWord_naive (free : 0x20 ∉ word) (merged : ¬ KeptWhole vocab word) :
    mergeWord vocab word = .ok (naiveMerge vocab.bpeRanks (wordChars word.length word)) := by
  have chain := charSymbols_chain 0 (le_refl word.length)
  rw [mergeWord, wordSymbols_chars merged, ← symbolTexts_charSymbols word.length 0 word]
  generalize charSymbols word.length 0 word = symbols at *
  have noSpace := chain.noSpace free
  obtain ⟨added, pushed, seeded, texts⟩ := @foldlM_addNewBigram vocab _ _ chain noSpace [] (by simp)
    _ fun _ member => member
  have inv : WordInv vocab { symbols, workQueue := added } := by
    refine ⟨?_, texts, noSpace⟩
    rw [seeded]
    exact chain.mergeInv
  have bound := @length_seeds_le _ vocab.bpeRanks symbols (List.range' 1 (symbols.length - 1))
  rw [← seeded, length_map, length_range'] at bound
  have count : liveCount symbols ≤ symbols.length := countP_le_length
  have enough : ({ symbols, workQueue := added } : Session).work ≤ 4 * symbols.length := by
    rw [Session.work]
    dsimp only
    omega
  obtain ⟨final, run, result⟩ := inv.mergeLoop enough
  rw [pushed, ok_bind, nil_append, run, ← result]
  rfl

end

/-- Both queues end with the naive merges, but for the words that are kept whole. -/
theorem workQueues_merge_naively {Score : Type} [LinearOrder Score] :
    (∀ (vocab : SpmVocab Score) (text : Bytes), text ≠ [] →
      (mergeSpm vocab text).walk.map Symbol.str =
        naiveMerge (mergeScore vocab) (wordChars text.length text)) ∧
      ∀ (vocab : BpeVocab) (word : Bytes), word ≠ [] →
        (KeptWhole vocab word → mergeWord vocab word = .ok [word]) ∧
          (¬ KeptWhole vocab word → 0x20 ∉ word →
            mergeWord vocab word = .ok (naiveMerge vocab.bpeRanks (wordChars word.length word))) :=
  ⟨fun _ _ nonempty => walk_texts nonempty, fun _ _ nonempty =>
    ⟨mergeWord_whole nonempty, fun merged free => mergeWord_naive free merged⟩⟩

/-- A vocabulary that ignores merges, in which the word `ab` is the only token. -/
def wholeVocab : BpeVocab := vocabOf [{ text := [97, 98], attr := {} }] true

/-- A vocabulary with the tokens `ab` and `bc`, the second one with the higher score. -/
def pairVocab : SpmVocab Nat where
  idToToken := [⟨[97, 98], 1⟩, ⟨[98, 99], 2⟩]
  tokenToId text := if text = [97, 98] then some 0 else if text = [98, 99] then some 1 else none
  text_of_id := by
    intro text id found
    split_ifs at found with isFirst isSecond
    · cases found
      rw [isFirst]
      rfl
    · cases found
      rw [isSecond]
      rfl

theorem workQueues_merge_naively_at_words :
    (mergeSpm pairVocab [97, 98, 99]).walk.map Symbol.str = [[97], [98, 99]] ∧
      mergeWord wholeVocab [97, 98] = .ok [[97, 98]] ∧
      mergeWord wholeVocab [98, 97] = .ok [[98], [97]] := by
  obtain ⟨spm, bpe⟩ := @workQueues_merge_naively Nat _
  refine ⟨(spm pairVocab _ (by decide)).trans (by decide),
    (bpe wholeVocab _ (by decide)).1 ⟨by decide, .inl rfl⟩, ?_⟩
  decide

theorem spmTokenize_eq_at_pair : spmTokenize pairVocab 1 [98, 99] = .ok [1] :=
  (spmTokenize_eq 0 (by decide)).trans rfl

/-- A word that is a token stays whole although no merge makes it. -/
theorem mergeWord_ignores_merges :
    mergeWord wholeVocab [97, 98] = .ok [[97, 98]] ∧
      naiveMerge wholeVocab.bpeRanks (wordChars 2 [97, 98]) = [[97], [98]] := by
  decide

end LlamaCpp.Vocab
