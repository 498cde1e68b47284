import LlamaCpp.Vocab.MergeQueue

/-!
# The SentencePiece tokenizer

A text starts as a chain of symbols, one for every character.  Two neighbours are merged if their
texts together are a token, the token of the highest score first.  The symbols that are left are
walked from the first one on; a text that is no token falls back to the merge that made it, or to
its bytes.
-/

set_option autoImplicit false

namespace LlamaCpp.Vocab

open LlamaCpp.Lib List

section

variable {Score : Type} [LinearOrder Score]

structure SpmToken (Score : Type) where
  text : Bytes
  score : Score

/-- A vocabulary of type `LLAMA_VOCAB_TYPE_SPM`; of the scores only the order matters. -/
structure SpmVocab (Score : Type) where
  idToToken : List (SpmToken Score)
  tokenToId : Bytes → Option Nat
  text_of_id : ∀ text id, tokenToId text = some id →
    (idToToken[id]?).map SpmToken.text = some text

structure SpmBigram (Score : Type) where
  left : Nat
  right : Nat
  score : Score
  size : Nat

structure SpmSession (Score : Type) where
  symbols : List Symbol
  workQueue : List (SpmBigram Score) := []
  revMerge : Bytes → Option (Nat × Nat) := fun _ => none

/-- The order of `llm_bigram_spm::comparator`. -/
def SpmBigram.before (bigram other : SpmBigram Score) : Bool :=
  other.score < bigram.score || (other.score == bigram.score && bigram.left < other.left)

variable (vocab : SpmVocab Score)

def tryAddBigram (session : SpmSession Score) (left right : Option Nat) : SpmSession Score :=
  match left, right with
  | some left, some right =>
    let text := (symbolAt session.symbols left).text.take
      ((symbolAt session.symbols left).n + (symbolAt session.symbols right).n)
    match vocab.tokenToId text with
    | none => session
    | some token =>
      match vocab.idToToken[token]? with
      | none => session
      | some tokData =>
        { session with
          workQueue := session.workQueue ++
            [{ left, right, score := tokData.score, size := text.length }]
          revMerge := Function.update session.revMerge text (some (left, right)) }
  | _, _ => session

def mergeSpmBigram (session : SpmSession Score) (bigram : SpmBigram Score) : SpmSession Score :=
  let left := symbolAt session.symbols bigram.left
  let right := symbolAt session.symbols bigram.right
  -- one of the symbols already got merged
  if left.n = 0 ∨ right.n = 0 ∨ left.n + right.n ≠ bigram.size then session
  else
    let symbols := mergeSymbols session.symbols bigram.left bigram.right
    let session := tryAddBigram vocab { session with symbols } left.prev (some bigram.left)
    tryAddBigram vocab session (some bigram.left) right.next

def mergeSpmLoop : Nat → SpmSession Score → SpmSession Score
  | 0, session => session
  | fuel + 1, session =>
    match popFirst SpmBigram.before session.workQueue with
    | none => session
    | some (bigram, workQueue) =>
      mergeSpmLoop fuel (mergeSpmBigram vocab { session with workQueue } bigram)

/-- The session when the queue is empty.  Every bigram is pushed for a new symbol, and there are at
most two for each character. -/
def mergeSpm (text : Bytes) : SpmSession Score :=
  let symbols := charSymbols text.length 0 text
  mergeSpmLoop vocab (4 * symbols.length)
    ((List.range' 1 (symbols.length - 1)).foldl (fun session i =>
      tryAddBigram vocab session (some (i - 1)) (some i)) { symbols })

def walkSymbols (symbols : List Symbol) : Nat → Option Nat → List Symbol
  | fuel + 1, some i => symbolAt symbols i :: walkSymbols symbols fuel (symbolAt symbols i).next
  | _, _ => []

def SpmSession.walk (session : SpmSession Score) : List Symbol :=
  walkSymbols session.symbols session.symbols.length (some 0)

def byteToToken (ch : UInt8) : Except String Nat :=
  match vocab.tokenToId [60, 48, 120, upperHex (ch.toNat / 16), upperHex (ch.toNat % 16), 62] with
  | some token => .ok token
  | none =>
    -- a C string, which ends at the first zero
    match vocab.tokenToId (if ch = 0 then [] else [ch]) with
    | some token => .ok token
    | none => .error "out_of_range"

def resegment (session : SpmSession Score) : Nat → Symbol → Except String (List Nat)
  | 0, _ => .error "out of fuel"
  | fuel + 1, symbol =>
    match vocab.tokenToId symbol.str with
    | some token => .ok [token]
    | none =>
      match session.revMerge symbol.str with
      | none => symbol.str.mapM (byteToToken vocab)
      | some (left, right) =>
        resegment session fuel (symbolAt session.symbols left) >>= fun first =>
          resegment session fuel (symbolAt session.symbols right) >>= fun second =>
            .ok (first ++ second)

/-- `llm_tokenizer_spm_session::tokenize`. -/
def spmTokenize (fuel : Nat) (text : Bytes) : Except String (List Nat) :=
  let session := mergeSpm vocab text
  session.walk.mapM (resegment vocab session fuel) >>= fun output => .ok output.flatten

def mergeScore (left right : Bytes) : Option Scoreᵒᵈ :=
  (vocab.tokenToId (left ++ right)).bind fun token =>
    (vocab.idToToken[token]?).map fun tokData => OrderDual.toDual tokData.score

def SpmBigram.candidate (bigram : SpmBigram Score) : Candidate Scoreᵒᵈ :=
  { left := bigram.left, right := bigram.right, size := bigram.size
    key := OrderDual.toDual bigram.score }

variable {vocab}

theorem SpmBigram.before_eq (bigram other : SpmBigram Score) :
    bigram.before other = bigram.candidate.before other.candidate := by
  rw [SpmBigram.before, Candidate.before, Bool.eq_iff_iff]
  simp only [Bool.or_eq_true, Bool.and_eq_true, beq_iff_eq]
  exact or_congr Iff.rfl (and_congr eq_comm Iff.rfl)

/-- The session between two rounds; the texts of `revMerge` are tokens. -/
structure SpmInv (vocab : SpmVocab Score) (session : SpmSession Score) : Prop where
  merges : MergeInv (mergeScore vocab) session.symbols (session.workQueue.map SpmBigram.candidate)
  first : Live session.symbols 0
  known : ∀ text, session.revMerge text ≠ none → vocab.tokenToId text ≠ none

omit [LinearOrder Score] in
theorem tryAddBigram_fresh {session : SpmSession Score} (linked : Linked session.symbols)
    (contiguous : Contiguous session.symbols) {left right : Option Nat}
    (follows : Follows session.symbols left right)
    (known : ∀ text, session.revMerge text ≠ none → vocab.tokenToId text ≠ none) :
    (tryAddBigram vocab session left right).symbols = session.symbols ∧
      (tryAddBigram vocab session left right).workQueue.map SpmBigram.candidate =
        session.workQueue.map SpmBigram.candidate ++
          fresh (mergeScore vocab) session.symbols left right ∧
      ∀ text, (tryAddBigram vocab session left right).revMerge text ≠ none →
        vocab.tokenToId text ≠ none := by
  rcases left with _ | i
  · exact ⟨rfl, (append_nil _).symm, known⟩
  rcases right with _ | j
  · exact ⟨rfl, (append_nil _).symm, known⟩
  obtain ⟨live, next⟩ := follows i j rfl rfl
  have size := length_take_of_le
    (contiguous.add_le live (linked.next i j live next).1 next)
  unfold tryAddBigram fresh
  dsimp only
  rw [mergeScore, contiguous.str_append live next]
  split
  · rename_i unknown
    rw [unknown]
    exact ⟨rfl, (append_nil _).symm, known⟩
  · rename_i token found
    rw [found, Option.bind_some]
    split
    · rename_i outside
      rw [outside]
      exact ⟨rfl, (append_nil _).symm, known⟩
    · rename_i tokData inside
      rw [inside]
      refine ⟨rfl, ?_, fun text => ?_⟩
      · simp [SpmBigram.candidate, size]
      · dsimp only
        rw [Function.update_apply]
        split_ifs with same
        · rw [same, found]
          simp
        · exact known text

def SpmSession.work (session : SpmSession Score) : Nat :=
  3 * liveCount session.symbols + session.workQueue.length

variable {session : SpmSession Score}

theorem SpmInv.mergeSpmBigram {bigram : SpmBigram Score} {others : List (SpmBigram Score)}
    (inv : SpmInv vocab session)
    (popped : popFirst SpmBigram.before session.workQueue = some (bigram, others)) :
    let next := Vocab.mergeSpmBigram vocab { session with workQueue := others } bigram
    SpmInv vocab next ∧ next.work < session.work ∧
      naiveMerge (mergeScore vocab) (symbolTexts next.symbols) =
        naiveMerge (mergeScore vocab) (symbolTexts session.symbols) := by
  have perm := popFirst_perm popped
  have lengths := perm.length_eq
  rw [length_cons] at lengths
  have candidates : (bigram.candidate :: others.map SpmBigram.candidate).Perm
      (session.workQueue.map SpmBigram.candidate) := perm.map SpmBigram.candidate
  unfold Vocab.mergeSpmBigram
  dsimp only
  split
  · rename_i outdated
    have skipped := inv.merges.skip candidates (by
      rintro ⟨liveLeft, liveRight, size⟩
      rcases outdated with none_ | none_ | other
      · exact ne_of_gt liveLeft none_
      · exact ne_of_gt liveRight none_
      · exact other size)
    refine ⟨⟨skipped, inv.first, inv.known⟩, ?_, rfl⟩
    rw [SpmSession.work, SpmSession.work]
    dsimp only
    omega
  · rename_i current
    simp only [not_or, not_not] at current
    have liveLeft : Live session.symbols bigram.left := Nat.pos_of_ne_zero current.1
    have liveRight : Live session.symbols bigram.right := Nat.pos_of_ne_zero current.2.1
    have changes := merged_mergeSymbols liveLeft.lt liveRight.lt
    have same := length_mergeSymbols session.symbols bigram.left bigram.right
    have adjacent := (inv.merges.sound _ (candidates.subset mem_cons_self)).adjacent
    have apart := Nat.ne_of_lt adjacent.1
    have live := changes.live_iff liveLeft apart
    obtain ⟨mergedInv, texts⟩ := inv.merges.merge candidates ⟨liveLeft, liveRight, current.2.2⟩
      (fun other member => by
        obtain ⟨item, inQueue, rfl⟩ := mem_map.mp member
        exact popFirst_candidate SpmBigram.candidate SpmBigram.before_eq popped item inQueue)
      changes same
    have fewer := liveCount_lt same (fun i now => ((live i).mp now).1) liveRight
      fun now => ((live _).mp now).2 rfl
    have firstSymbol : Live (mergeSymbols session.symbols bigram.left bigram.right) 0 :=
      (live 0).mpr ⟨inv.first, (Nat.zero_lt_of_lt adjacent.1).ne⟩
    have onLeft := changes.follows_prev inv.merges.linked liveLeft liveRight adjacent
    have onRight := changes.follows_next liveLeft apart
    generalize mergeSymbols session.symbols bigram.left bigram.right = merged at *
    have linked := mergedInv.linked
    have contiguous := mergedInv.contiguous
    obtain ⟨firstSymbols, firstQueue, firstKnown⟩ := @tryAddBigram_fresh _ vocab
      { session with workQueue := others, symbols := merged } linked contiguous _ _ onLeft inv.known
    generalize tryAddBigram vocab { session with workQueue := others, symbols := merged }
      (symbolAt session.symbols bigram.left).prev (some bigram.left) = firstAdded at *
    dsimp only at firstSymbols
    obtain ⟨secondSymbols, secondQueue, secondKnown⟩ := @tryAddBigram_fresh _ vocab _
      (firstSymbols ▸ linked) (firstSymbols ▸ contiguous) _ _ (firstSymbols ▸ onRight) firstKnown
    rw [firstSymbols] at secondSymbols secondQueue
    rw [firstQueue] at secondQueue
    refine ⟨⟨?_, secondSymbols ▸ firstSymbol, secondKnown⟩, ?_, secondSymbols ▸ texts⟩
    · rw [secondSymbols, secondQueue]
      exact mergedInv
    · have queue := congrArg List.length secondQueue
      have left := @length_fresh_le _ (mergeScore vocab) merged
        (symbolAt session.symbols bigram.left).prev (some bigram.left)
      have right := @length_fresh_le _ (mergeScore vocab) merged (some bigram.left)
        (symbolAt session.symbols bigram.right).next
      simp only [length_append, length_map] at queue
      rw [SpmSession.work, SpmSession.work, secondSymbols]
      omega

theorem SpmInv.mergeSpmLoop (inv : SpmInv vocab session) {fuel : Nat}
    (enough : session.work ≤ fuel) : SpmInv vocab (Vocab.mergeSpmLoop vocab fuel session) ∧
      symbolTexts (Vocab.mergeSpmLoop vocab fuel session).symbols =
        naiveMerge (mergeScore vocab) (symbolTexts session.symbols) := by
  have ends {last : SpmSession Score} (lastInv : SpmInv vocab last) (empty : last.workQueue = []) :
      symbolTexts last.symbols = naiveMerge (mergeScore vocab) (symbolTexts last.symbols) := by
    have merges := lastInv.merges
    rw [empty] at merges
    exact merges.done.symm
  induction fuel generalizing session with
  | zero =>
    have empty : session.workQueue = [] := by
      rw [SpmSession.work] at enough
      exact length_eq_zero_iff.mp (by omega)
    exact ⟨inv, ends inv empty⟩
  | succ fuel ih =>
    rw [Vocab.mergeSpmLoop]
    cases popped : popFirst SpmBigram.before session.workQueue with
    | none => exact ⟨inv, ends inv (popFirst_none popped)⟩
    | some found =>
      obtain ⟨nextInv, less, texts⟩ := inv.mergeSpmBigram popped
      rw [← texts]
      exact ih nextInv (by omega)

omit [LinearOrder Score] in
theorem foldl_tryAddBigram {symbols : List Symbol} {word : Bytes} (chain : CharChain 0 word symbols)
    {session : SpmSession Score} (same : session.symbols = symbols)
    (known : ∀ text, session.revMerge text ≠ none → vocab.tokenToId text ≠ none)
    {places : List Nat} (inside : ∀ i ∈ places, i ∈ List.range' 1 (symbols.length - 1)) :
    let next := places.foldl (fun session i =>
      tryAddBigram vocab session (some (i - 1)) (some i)) session
    next.symbols = symbols ∧
      next.workQueue.map SpmBigram.candidate = session.workQueue.map SpmBigram.candidate ++
        seeds (mergeScore vocab) symbols places ∧
      ∀ text, next.revMerge text ≠ none → vocab.tokenToId text ≠ none := by
  induction places generalizing session with
  | nil => exact ⟨same, (append_nil _).symm, known⟩
  | cons i rest ih =>
    obtain ⟨symbols_, queue, nextKnown⟩ := @tryAddBigram_fresh _ vocab _ (same ▸ chain.linked)
      (same ▸ chain.contiguous) _ _ (same ▸ chain.follows (inside i mem_cons_self)) known
    obtain ⟨finalSymbols, finalQueue, finalKnown⟩ := ih (symbols_.trans same) nextKnown
      fun j member => inside j (mem_cons_of_mem _ member)
    refine ⟨finalSymbols, ?_, finalKnown⟩
    rw [foldl_cons, finalQueue, queue, seeds_cons, append_assoc, same]

theorem mergeSpm_texts {text : Bytes} (nonempty : text ≠ []) :
    SpmInv vocab (mergeSpm vocab text) ∧ symbolTexts (mergeSpm vocab text).symbols =
      naiveMerge (mergeScore vocab) (wordChars text.length text) := by
  have chain := charSymbols_chain 0 (le_refl text.length)
  unfold mergeSpm
  dsimp only
  rw [← symbolTexts_charSymbols text.length 0 text]
  generalize charSymbols text.length 0 text = symbols at *
  obtain ⟨same, queue, known⟩ := @foldl_tryAddBigram _ vocab _ _ chain { symbols } rfl
    (fun _ none_ => absurd rfl none_) _ fun _ member => member
  have live : Live symbols 0 := by
    refine (chain.text 0 (length_pos_iff.mpr fun none_ => ?_)).1
    exact nonempty (chain.empty.mp none_)
  generalize (List.range' 1 (symbols.length - 1)).foldl (fun session i =>
    tryAddBigram vocab session (some (i - 1)) (some i)) { symbols } = session at *
  subst same
  have inv : SpmInv vocab session := by
    refine ⟨?_, live, known⟩
    rw [queue]
    exact chain.mergeInv
  refine inv.mergeSpmLoop ?_
  have seeded := congrArg List.length queue
  have bound := @length_seeds_le _ (mergeScore vocab) session.symbols
    (List.range' 1 (session.symbols.length - 1))
  rw [length_map, length_append, length_map, length_nil] at seeded
  rw [length_range'] at bound
  have count : liveCount session.symbols ≤ session.symbols.length := countP_le_length
  rw [SpmSession.work]
  omega

theorem walkSymbols_eq {symbols : List Symbol} (linked : Linked symbols) {front back : List Nat}
    {i : Nat} (places : livePlaces symbols = front ++ i :: back) {fuel : Nat}
    (enough : back.length < fuel) :
    walkSymbols symbols fuel (some i) = (i :: back).map (symbolAt symbols) := by
  induction back generalizing front i fuel with
  | nil =>
    have live : Live symbols i := mem_livePlaces.mp (by simp [places])
    have ends : (symbolAt symbols i).next = none := by
      cases next : (symbolAt symbols i).next with
      | none => rfl
      | some j =>
        obtain ⟨liveJ, between, -⟩ := linked.next i j live next
        have member := mem_livePlaces.mpr liveJ
        have sorted := livePlaces_sorted symbols
        rw [places] at member sorted
        rcases mem_append.mp member with before | same
        · exact absurd ((pairwise_append.mp sorted).2.2 j before i mem_cons_self)
            (lt_asymm between.1)
        · exact absurd (mem_singleton.mp same) (ne_of_gt between.1)
    cases fuel with
    | zero => contradiction
    | succ fuel => cases fuel <;> rw [walkSymbols, ends] <;> rfl
  | cons j back ih =>
    cases fuel with
    | zero => contradiction
    | succ fuel =>
      have chain := linked.isChain
      rw [places, isChain_append_cons_cons] at chain
      rw [walkSymbols, chain.2.1.2.2, @ih (front ++ [i]) j (by simp [places]) _
        (Nat.lt_of_succ_lt_succ enough), map_cons (a := i)]

theorem walk_texts {text : Bytes} (nonempty : text ≠ []) :
    (mergeSpm vocab text).walk.map Symbol.str =
      naiveMerge (mergeScore vocab) (wordChars text.length text) := by
  obtain ⟨inv, texts⟩ := @mergeSpm_texts _ _ vocab _ nonempty
  rw [← texts, symbolTexts_eq]
  generalize mergeSpm vocab text = session at *
  have sorted := livePlaces_sorted session.symbols
  have first := mem_livePlaces.mpr inv.first
  have length : (livePlaces session.symbols).length ≤ session.symbols.length := by
    exact (length_filter_le _ _).trans length_range.le
  cases places : livePlaces session.symbols with
  | nil =>
    rw [places] at first
    contradiction
  | cons i back =>
    rw [places] at first sorted length
    have isFirst : i = 0 := by
      rcases mem_cons.mp first with same | later
      · exact same.symm
      · exact absurd ((pairwise_cons.mp sorted).1 0 later) (Nat.not_lt_zero i)
    rw [SpmSession.walk, ← isFirst, @walkSymbols_eq _ inv.merges.linked [] _ _ places _ length,
      map_map]
    rfl

def textTokens (vocab : SpmVocab Score) (text : Bytes) : Except String (List Nat) :=
  match vocab.tokenToId text with
  | some token => .ok [token]
  | none => text.mapM (byteToToken vocab)

omit [LinearOrder Score] in
theorem resegment_eq (known : ∀ text, session.revMerge text ≠ none → vocab.tokenToId text ≠ none)
    (fuel : Nat) (symbol : Symbol) :
    resegment vocab session (fuel + 1) symbol = textTokens vocab symbol.str := by
  rw [resegment, textTokens]
  cases found : vocab.tokenToId symbol.str with
  | some token => rfl
  | none =>
    have unmade : session.revMerge symbol.str = none := by
      by_contra made
      exact known _ made found
    rw [unmade]

/-- A symbol that is left is a token or is written byte by byte: `rev_merge` is never followed. -/
theorem spmTokenize_eq (fuel : Nat) {text : Bytes} (nonempty : text ≠ []) :
    spmTokenize vocab (fuel + 1) text =
      (naiveMerge (mergeScore vocab) (wordChars text.length text)).mapM (textTokens vocab) >>=
        fun output => .ok output.flatten := by
  have known := (@mergeSpm_texts _ _ vocab _ nonempty).1.known
  have tokens : resegment vocab (mergeSpm vocab text) (fuel + 1) =
      textTokens vocab ∘ Symbol.str := funext fun symbol => resegment_eq known fuel symbol
  rw [spmTokenize, ← walk_texts nonempty, mapM_map, tokens]

end

end LlamaCpp.Vocab
