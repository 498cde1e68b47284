import LlamaCpp.Vocab.Bpe

/-!
# Merging keeps the bytes

The symbols of a word are kept against the bytes that each of them stands for.  A symbol without
text stands for none; the others are in one chain, and a pair in the queue has nothing between its
symbols, so a merge only moves a boundary.
-/

set_option autoImplicit false

namespace LlamaCpp.Vocab

open LlamaCpp.Lib List Option

theorem symbolAt_set (symbols : List Symbol) (i j : Nat) (symbol : Symbol) :
    symbolAt (symbols.set i symbol) j =
      if i = j ∧ i < symbols.length then symbol else symbolAt symbols j := by
  rw [symbolAt, symbolAt, getD_eq_getElem?_getD]
  by_cases same : i = j
  · subst j
    by_cases inside : i < symbols.length
    · simp [inside]
    · simp [inside]
  · simp [same]

variable {i : Nat} {pieces : List Bytes}

theorem symbolAt_of_le {symbols : List Symbol} (beyond : symbols.length ≤ i) :
    symbolAt symbols i = {} := by
  rw [symbolAt, getD_eq_getElem?_getD, List.getElem?_eq_none beyond]
  rfl

def Live (symbols : List Symbol) (i : Nat) : Prop := 0 < (symbolAt symbols i).n

theorem Live.lt {symbols : List Symbol} (live : Live symbols i) : i < symbols.length := by
  by_contra beyond
  rw [Live, symbolAt_of_le (Nat.le_of_not_lt beyond)] at live
  exact Nat.lt_irrefl 0 live

def Adjacent (symbols : List Symbol) (left right : Nat) : Prop :=
  left < right ∧ ∀ k, left < k → k < right → ¬ Live symbols k

structure Linked (symbols : List Symbol) : Prop where
  next : ∀ i j, Live symbols i → (symbolAt symbols i).next = some j →
    Live symbols j ∧ Adjacent symbols i j ∧ (symbolAt symbols j).prev = some i
  last : ∀ i, Live symbols i → (symbolAt symbols i).next = none → ∀ k, i < k → ¬ Live symbols k
  prev : ∀ i j, Live symbols i → (symbolAt symbols i).prev = some j →
    Live symbols j ∧ (symbolAt symbols j).next = some i

theorem Linked.next_of_adjacent {symbols : List Symbol} (linked : Linked symbols) {left right : Nat}
    (liveLeft : Live symbols left) (liveRight : Live symbols right)
    (adjacent : Adjacent symbols left right) : (symbolAt symbols left).next = some right := by
  cases here : (symbolAt symbols left).next with
  | none => exact absurd liveRight (linked.last left liveLeft here right adjacent.1)
  | some j =>
    obtain ⟨liveJ, between, -⟩ := linked.next left j liveLeft here
    rcases lt_trichotomy j right with before | same | beyond
    · exact absurd liveJ (adjacent.2 j between.1 before)
    · rw [same]
    · exact absurd liveRight (between.2 right adjacent.1 beyond)

section

variable {symbols : List Symbol} {left right : Nat}

theorem length_joinSymbols (symbols : List Symbol) (left right : Nat) :
    (joinSymbols symbols left right).length = symbols.length := by
  simp [joinSymbols]

theorem length_mergeSymbols (symbols : List Symbol) (left right : Nat) :
    (mergeSymbols symbols left right).length = symbols.length := by
  unfold mergeSymbols setPrev
  split <;> simp [length_joinSymbols]

theorem symbolAt_joinSymbols (insideLeft : left < symbols.length)
    (insideRight : right < symbols.length) (i : Nat) :
    symbolAt (joinSymbols symbols left right) i =
      if i = right then { symbolAt symbols right with n := 0 }
      else if i = left then
        { symbolAt symbols left with
            n := (symbolAt symbols left).n + (symbolAt symbols right).n
            next := (symbolAt symbols right).next }
      else symbolAt symbols i := by
  rw [joinSymbols, symbolAt_set, symbolAt_set, length_set]
  by_cases isRight : i = right
  · subst i
    rw [if_pos ⟨rfl, insideRight⟩, if_pos rfl]
  · rw [if_neg (fun same => isRight same.1.symm), if_neg isRight]
    by_cases isLeft : i = left
    · subst i
      rw [if_pos ⟨rfl, insideLeft⟩, if_pos rfl]
    · rw [if_neg (fun same => isLeft same.1.symm), if_neg isLeft]

theorem symbolAt_setPrev (symbols : List Symbol) (place : Option Nat) (prev i : Nat) :
    symbolAt (setPrev symbols place prev) i =
      if place = some i ∧ i < symbols.length then { symbolAt symbols i with prev := some prev }
      else symbolAt symbols i := by
  cases place with
  | none => simp [setPrev]
  | some j =>
    rw [setPrev, symbolAt_set]
    by_cases same : j = i
    · subst j
      simp
    · simp [same]

structure Merged (symbols merged : List Symbol) (left right : Nat) : Prop where
  text : ∀ i, (symbolAt merged i).text = (symbolAt symbols i).text
  n : ∀ i, (symbolAt merged i).n = if i = right then 0 else if i = left then
    (symbolAt symbols left).n + (symbolAt symbols right).n else (symbolAt symbols i).n
  next : ∀ i, (symbolAt merged i).next =
    if i = left then (symbolAt symbols right).next else (symbolAt symbols i).next
  prev : ∀ i, (symbolAt merged i).prev =
    if (symbolAt symbols right).next = some i ∧ i < symbols.length then some left
    else (symbolAt symbols i).prev

theorem merged_mergeSymbols (insideLeft : left < symbols.length)
    (insideRight : right < symbols.length) : Merged symbols (mergeSymbols symbols left right) left right := by
  have text (i : Nat) : (symbolAt (joinSymbols symbols left right) i).text =
      (symbolAt symbols i).text := by
    rw [symbolAt_joinSymbols insideLeft insideRight]
    split_ifs with isRight isLeft
    · rw [isRight]
    · rw [isLeft]
    · rfl
  have next (i : Nat) : (symbolAt (joinSymbols symbols left right) i).next =
      if i = left then (symbolAt symbols right).next else (symbolAt symbols i).next := by
    rw [symbolAt_joinSymbols insideLeft insideRight]
    split_ifs with isRight isLeft isLeft
    · rfl
    · rw [isRight]
    · rfl
    · rfl
  have prev (i : Nat) : (symbolAt (joinSymbols symbols left right) i).prev =
      (symbolAt symbols i).prev := by
    rw [symbolAt_joinSymbols insideLeft insideRight]
    split_ifs with isRight isLeft
    · rw [isRight]
    · rw [isLeft]
    · rfl
  refine ⟨fun i => ?_, fun i => ?_, fun i => ?_, fun i => ?_⟩ <;>
    rw [mergeSymbols, symbolAt_setPrev, length_joinSymbols]
  · rw [← text i]
    split <;> rfl
  · have n : (symbolAt (joinSymbols symbols left right) i).n = if i = right then 0
        else if i = left then (symbolAt symbols left).n + (symbolAt symbols right).n
        else (symbolAt symbols i).n := by
      rw [symbolAt_joinSymbols insideLeft insideRight]
      split_ifs <;> rfl
    rw [← n]
    split <;> rfl
  · rw [← next i]
    split <;> rfl
  · rw [← prev i]
    split <;> rfl

section

variable {merged : List Symbol} (changes : Merged symbols merged left right)
include changes

theorem Merged.live_iff (liveLeft : Live symbols left) (apart : left ≠ right) (i : Nat) :
    Live merged i ↔ Live symbols i ∧ i ≠ right := by
  have some_ : 0 < (symbolAt symbols left).n := liveLeft
  rw [Live, Live, changes.n i]
  split_ifs with isRight isLeft
  · simp [isRight]
  · subst i
    exact ⟨fun _ => ⟨some_, apart⟩, fun _ => by omega⟩
  · simp [isRight]

theorem Merged.linked (linked : Linked symbols) (liveLeft : Live symbols left)
    (liveRight : Live symbols right) (adjacent : Adjacent symbols left right) : Linked merged := by
  have apart := ne_of_lt adjacent.1
  have live := changes.live_iff liveLeft apart
  have toRight := linked.next_of_adjacent liveLeft liveRight adjacent
  have fromLeft := (linked.next left right liveLeft toRight).2.2
  have dead {k : Nat} (was : ¬ Live symbols k) : ¬ Live merged k := fun now => was ((live k).mp now).1
  refine ⟨?_, ?_, ?_⟩
  · intro i j liveI next
    obtain ⟨wasI, notRight⟩ := (live i).mp liveI
    rw [changes.next i] at next
    split_ifs at next with isLeft
    · obtain ⟨liveJ, between, back⟩ := linked.next right j liveRight next
      have beyond : right ≠ j := ne_of_lt between.1
      rw [isLeft, changes.prev j, if_pos ⟨next, liveJ.lt⟩]
      refine ⟨(live j).mpr ⟨liveJ, beyond.symm⟩, ⟨adjacent.1.trans between.1, ?_⟩, rfl⟩
      intro k after before
      rcases lt_trichotomy k right with less | same | more
      · exact dead (adjacent.2 k after less)
      · exact fun now => ((live k).mp now).2 same
      · exact dead (between.2 k more before)
    · obtain ⟨liveJ, between, back⟩ := linked.next i j wasI next
      have notJ : j ≠ right := by
        intro same
        rw [same, fromLeft, some.injEq] at back
        exact isLeft back.symm
      have kept : ¬ ((symbolAt symbols right).next = some j ∧ j < symbols.length) := by
        intro follows
        have other := (linked.next right j liveRight follows.1).2.2
        rw [back, some.injEq] at other
        exact notRight other
      rw [changes.prev j, if_neg kept]
      exact ⟨(live j).mpr ⟨liveJ, notJ⟩, ⟨between.1, fun k after before =>
        dead (between.2 k after before)⟩, back⟩
  · intro i liveI next k after
    obtain ⟨wasI, notRight⟩ := (live i).mp liveI
    rw [changes.next i] at next
    split_ifs at next with isLeft
    · rw [isLeft] at after
      rcases lt_trichotomy k right with less | same | more
      · exact dead (adjacent.2 k after less)
      · exact fun now => ((live k).mp now).2 same
      · exact dead (linked.last right liveRight next k more)
    · exact dead (linked.last i wasI next k after)
  · intro i j liveI prev
    obtain ⟨wasI, notRight⟩ := (live i).mp liveI
    rw [changes.prev i] at prev
    split_ifs at prev with follows
    · cases prev
      rw [changes.next left, if_pos rfl]
      exact ⟨(live left).mpr ⟨liveLeft, apart⟩, follows.1⟩
    · obtain ⟨liveJ, next⟩ := linked.prev i j wasI prev
      have notJ : j ≠ right := by
        intro same
        rw [same] at next
        exact follows ⟨next, wasI.lt⟩
      have notLeft : j ≠ left := by
        intro same
        rw [same, toRight, some.injEq] at next
        exact notRight next.symm
      rw [changes.next j, if_neg notLeft]
      exact ⟨(live j).mpr ⟨liveJ, notJ⟩, next⟩

end

end

/-- Each symbol with a text stands for bytes, and its text goes on to the end of the word. -/
structure StandsFor (symbols : List Symbol) (pieces : List Bytes) : Prop where
  length : pieces.length = symbols.length
  n : ∀ i, (symbolAt symbols i).n = (encodeBytes (pieces.getD i [])).length
  text : ∀ i, Live symbols i → (symbolAt symbols i).text = encodeBytes (pieces.drop i).flatten

theorem StandsFor.str {symbols : List Symbol} (stands : StandsFor symbols pieces) (i : Nat) :
    (symbolAt symbols i).str = encodeBytes (pieces.getD i []) := by
  have n := stands.n i
  by_cases live : Live symbols i
  · have inside : i < pieces.length := by
      rw [stands.length]
      exact live.lt
    rw [Symbol.str, stands.text i live, n, drop_eq_getElem_cons inside, flatten_cons,
      encodeBytes_append, getD_eq_getElem _ _ inside, take_left]
  · have none_ : (symbolAt symbols i).n = 0 := Nat.eq_zero_of_not_pos live
    rw [Symbol.str, none_]
    rw [none_] at n
    exact (length_eq_zero_iff.mp n.symm).symm

theorem StandsFor.live_iff {symbols : List Symbol} (stands : StandsFor symbols pieces) (i : Nat) :
    Live symbols i ↔ pieces.getD i [] ≠ [] := by
  rw [Live, stands.n i, length_pos_iff, Ne, encodeBytes_eq_nil]

def joinPieces (pieces : List Bytes) (left right : Nat) : List Bytes :=
  (pieces.set left (pieces.getD left [] ++ pieces.getD right [])).set right []

theorem exists_around {α : Type*} {items : List α} {left right : Nat} (order : left < right)
    (inside : right < items.length) : ∃ front one middle other back,
      items = front ++ one :: (middle ++ other :: back) ∧ front.length = left ∧
        left + 1 + middle.length = right := by
  refine ⟨items.take left, items[left], (items.drop (left + 1)).take (right - (left + 1)),
    items[right], items.drop (right + 1), ?_, ?_, ?_⟩
  · have tail : items.drop (left + 1) = (items.drop (left + 1)).take (right - (left + 1)) ++
        items[right] :: items.drop (right + 1) := by
      rw [← drop_eq_getElem_cons inside]
      conv_lhs => rw [← take_append_drop (right - (left + 1)) (items.drop (left + 1))]
      rw [drop_drop]
      congr 2
      omega
    rw [← tail, ← drop_eq_getElem_cons, take_append_drop]
  · rw [length_take]
    omega
  · rw [length_take, length_drop]
    omega

theorem flatten_drop_joinPieces {left right : Nat} (order : left < right)
    (inside : right < pieces.length) (between : ∀ k, left < k → k < right → pieces.getD k [] = [])
    (outside : i ≤ left ∨ right < i) :
    ((joinPieces pieces left right).drop i).flatten = (pieces.drop i).flatten := by
  rcases outside with before | beyond
  · obtain ⟨front, one, middle, other, back, rfl, atLeft, atRight⟩ := exists_around order inside
    subst left
    subst right
    have nothing : middle.flatten = [] := by
      refine flatten_eq_nil_iff.mpr fun piece member => ?_
      obtain ⟨k, short, here⟩ := mem_iff_getElem.mp member
      have empty := between (front.length + 1 + k) (by omega) (by omega)
      rw [getD_append_right _ _ _ _ (by omega)] at empty
      have place : front.length + 1 + k - front.length = k + 1 := by omega
      rw [place, getD_cons_succ, getD_append _ _ _ _ short,
        getD_eq_getElem _ _ short, here] at empty
      exact empty
    have joined : joinPieces (front ++ one :: (middle ++ other :: back)) front.length
        (front.length + 1 + middle.length) = front ++ (one ++ other) :: (middle ++ [] :: back) := by
      have place : front.length + 1 + middle.length - front.length = middle.length + 1 := by omega
      have first : (front ++ one :: (middle ++ other :: back)).getD front.length [] = one := by
        rw [getD_append_right _ _ _ _ (Nat.le_refl _), Nat.sub_self]
        rfl
      have second : (front ++ one :: (middle ++ other :: back)).getD
          (front.length + 1 + middle.length) [] = other := by
        rw [getD_append_right _ _ _ _ (by omega), place, getD_cons_succ,
          getD_append_right _ _ _ _ (Nat.le_refl _), Nat.sub_self]
        rfl
      rw [joinPieces, first, second, set_append_right _ _ (Nat.le_refl _), Nat.sub_self,
        set_cons_zero, set_append_right _ _ (by omega), place, set_cons_succ,
        set_append_right _ _ (Nat.le_refl _), Nat.sub_self, set_cons_zero]
    rw [joined, drop_append_of_le_length before, drop_append_of_le_length before]
    simp [nothing]
  · rw [joinPieces, drop_set_of_lt beyond, drop_set_of_lt (order.trans beyond)]

theorem getD_joinPieces {left right : Nat} (insideLeft : left < pieces.length)
    (insideRight : right < pieces.length) (i : Nat) : (joinPieces pieces left right).getD i [] =
      if i = right then [] else if i = left then pieces.getD left [] ++ pieces.getD right []
      else pieces.getD i [] := by
  rw [joinPieces, getD_eq_getElem?_getD, List.getElem?_set, List.getElem?_set]
  by_cases isRight : i = right
  · subst i
    simp [insideRight]
  · rw [if_neg (Ne.symm isRight), if_neg isRight]
    by_cases isLeft : i = left
    · subst i
      simp [insideLeft]
    · rw [if_neg (Ne.symm isLeft), if_neg isLeft, getD_eq_getElem?_getD]

theorem Merged.standsFor {symbols merged : List Symbol} {left right : Nat}
    (changes : Merged symbols merged left right) (same : merged.length = symbols.length)
    (stands : StandsFor symbols pieces) (liveLeft : Live symbols left)
    (liveRight : Live symbols right) (adjacent : Adjacent symbols left right) :
    StandsFor merged (joinPieces pieces left right) := by
  have insideLeft : left < pieces.length := stands.length ▸ liveLeft.lt
  have insideRight : right < pieces.length := stands.length ▸ liveRight.lt
  have between (k : Nat) (after : left < k) (before : k < right) : pieces.getD k [] = [] := by
    by_contra some_
    exact adjacent.2 k after before ((stands.live_iff k).mpr some_)
  refine ⟨?_, ?_, ?_⟩
  · rw [joinPieces, length_set, length_set, stands.length, same]
  · intro i
    rw [changes.n i, getD_joinPieces insideLeft insideRight]
    split_ifs
    · rfl
    · rw [encodeBytes_append, length_append, stands.n left, stands.n right]
    · exact stands.n i
  · intro i live
    obtain ⟨was, notRight⟩ := (changes.live_iff liveLeft (ne_of_lt adjacent.1) i).mp live
    have outside : i ≤ left ∨ right < i := by
      by_contra inner
      exact adjacent.2 i (by omega) (by omega) was
    rw [changes.text i, stands.text i was,
      flatten_drop_joinPieces adjacent.1 insideRight between outside]

/-- A text with a token of its own of type `NORMAL`. -/
def IsToken (vocab : BpeVocab) (text : Bytes) : Prop :=
  ∃ id token, vocab.tokenToId text = some id ∧ vocab.idToToken[id]? = some token ∧
    token.attr.normal = true ∧ token.attr.isSpecial = false

def IsMerge (vocab : BpeVocab) (text : Bytes) : Prop :=
  ∃ left right rank, vocab.bpeRanks left right = some rank ∧ text = left ++ right

/-- A vocabulary with byte encoding in which the characters of the bytes and the results of the
merges are normal tokens, without a space prefix. -/
structure ByteLevel (vocab : BpeVocab) : Prop where
  encoded : vocab.isGemma4 = false ∧ vocab.escapeWhitespaces = false
  noPrefix : vocab.addSpacePrefix = false
  bytes : ∀ byte, IsToken vocab (unicodeByteToUtf8 byte)
  merges : ∀ text, IsMerge vocab text → IsToken vocab text

def WholeWordsNormal (vocab : BpeVocab) : Prop :=
  vocab.ignoreMerges = true → ∀ word : Bytes, (vocab.tokenToId (encodeBytes word)).isSome →
    IsToken vocab (encodeBytes word)

section

variable {vocab : BpeVocab}

def Queued (vocab : BpeVocab) (symbols : List Symbol) (bigram : Bigram) : Prop :=
  Adjacent symbols bigram.left bigram.right ∧ IsMerge vocab bigram.text

/-- The session between two rounds: the bytes that its symbols stand for are those of the word, and
each has a token. -/
structure SessionInv (vocab : BpeVocab) (bytes : Bytes) (session : Session) : Prop where
  linked : Linked session.symbols
  queue : ∀ bigram ∈ session.workQueue, Queued vocab session.symbols bigram
  pieces : ∃ pieces, StandsFor session.symbols pieces ∧ pieces.flatten = bytes ∧
    ∀ piece ∈ pieces, piece ≠ [] → IsToken vocab (encodeBytes piece)

variable {bytes : Bytes} {session : Session} {fuel : Nat}

theorem SessionInv.addNewBigram (inv : SessionInv vocab bytes session) (left right : Option Nat)
    (neighbours : ∀ l r, left = some l → right = some r → Adjacent session.symbols l r) :
    ∃ next, Vocab.addNewBigram vocab session left right = .ok next ∧ SessionInv vocab bytes next ∧
      next.symbols = session.symbols ∧ next.workQueue.length ≤ session.workQueue.length + 1 := by
  obtain ⟨pieces, stands, together, known⟩ := inv.pieces
  unfold Vocab.addNewBigram
  split
  · rename_i l r
    have noSpace (i : Nat) : 0x20 ∉ (symbolAt session.symbols i).str := by
      rw [stands.str i]
      exact space_not_mem_encodeBytes _
    dsimp only
    rw [findBpeRank, if_neg (by simp [noSpace]), ok_bind]
    split
    · rename_i rank found
      refine ⟨_, rfl, ⟨inv.linked, ?_, ⟨pieces, stands, together, known⟩⟩, rfl, by simp⟩
      intro bigram member
      rcases mem_append.mp member with earlier | fresh
      · exact inv.queue bigram earlier
      · rw [mem_singleton.mp fresh]
        exact ⟨neighbours l r rfl rfl, _, _, rank, found, rfl⟩
    · exact ⟨session, rfl, inv, rfl, Nat.le_succ _⟩
  · exact ⟨session, rfl, inv, rfl, Nat.le_succ _⟩

def liveCount (symbols : List Symbol) : Nat := symbols.countP fun symbol => 0 < symbol.n

theorem live_cons_zero (symbol : Symbol) (rest : List Symbol) :
    Live (symbol :: rest) 0 ↔ 0 < symbol.n := Iff.rfl

theorem liveCount_le {symbols merged : List Symbol} (same : merged.length = symbols.length)
    (fewer : ∀ i, Live merged i → Live symbols i) : liveCount merged ≤ liveCount symbols := by
  induction symbols generalizing merged with
  | nil =>
    rw [length_eq_zero_iff.mp same]
  | cons symbol rest ih =>
    cases merged with
    | nil => exact Nat.zero_le _
    | cons first others =>
      have tail := ih (Nat.succ.inj same) fun i live => fewer (i + 1) live
      have head := fewer 0
      rw [live_cons_zero, live_cons_zero] at head
      simp only [liveCount, countP_cons, decide_eq_true_eq] at tail ⊢
      split_ifs <;> omega

theorem liveCount_lt {symbols merged : List Symbol} (same : merged.length = symbols.length)
    (fewer : ∀ i, Live merged i → Live symbols i) {i : Nat} (live : Live symbols i)
    (dead : ¬ Live merged i) : liveCount merged < liveCount symbols := by
  induction symbols generalizing merged i with
  | nil => exact absurd live.lt (Nat.not_lt_zero i)
  | cons symbol rest ih =>
    cases merged with
    | nil => contradiction
    | cons first others =>
      have lengths := Nat.succ.inj same
      have head := fewer 0
      rw [live_cons_zero, live_cons_zero] at head
      cases i with
      | zero =>
        have tail := liveCount_le lengths fun i live => fewer (i + 1) live
        rw [live_cons_zero] at live dead
        simp only [liveCount, countP_cons, decide_eq_true_eq] at tail ⊢
        rw [if_pos live, if_neg dead]
        omega
      | succ i =>
        have tail := ih lengths (fun i live => fewer (i + 1) live) live dead
        simp only [liveCount, countP_cons, decide_eq_true_eq] at tail ⊢
        split_ifs <;> omega

def Session.work (session : Session) : Nat :=
  3 * liveCount session.symbols + session.workQueue.length

theorem SessionInv.mergeBigram (level : ByteLevel vocab) (inv : SessionInv vocab bytes session)
    {bigram : Bigram} (queued : Queued vocab session.symbols bigram) :
    ∃ next, Vocab.mergeBigram vocab session bigram = .ok next ∧ SessionInv vocab bytes next ∧
      next.work ≤ session.work := by
  obtain ⟨adjacent, merge⟩ := queued
  obtain ⟨pieces, stands, together, known⟩ := inv.pieces
  unfold Vocab.mergeBigram
  dsimp only
  split
  · exact ⟨session, rfl, inv, le_refl _⟩
  split
  · exact ⟨session, rfl, inv, le_refl _⟩
  rename_i texts current
  rw [not_or] at texts
  rw [not_not, stands.str, stands.str, ← encodeBytes_append] at current
  have liveLeft : Live session.symbols bigram.left := Nat.pos_of_ne_zero texts.1
  have liveRight : Live session.symbols bigram.right := Nat.pos_of_ne_zero texts.2
  have apart := Nat.ne_of_lt adjacent.1
  have changes := merged_mergeSymbols liveLeft.lt liveRight.lt
  have same := length_mergeSymbols session.symbols bigram.left bigram.right
  have live := changes.live_iff liveLeft apart
  have linked := changes.linked inv.linked liveLeft liveRight adjacent
  have liveMerged : Live (mergeSymbols session.symbols bigram.left bigram.right) bigram.left :=
    (live _).mpr ⟨liveLeft, apart⟩
  generalize mergeSymbols session.symbols bigram.left bigram.right = merged at *
  have mergedInv : SessionInv vocab bytes { session with symbols := merged } := by
    refine ⟨linked, ?_, joinPieces pieces bigram.left bigram.right,
      changes.standsFor same stands liveLeft liveRight adjacent, ?_, ?_⟩
    · intro other member
      obtain ⟨between, isMerge⟩ := inv.queue other member
      exact ⟨⟨between.1, fun k after before now =>
        between.2 k after before ((live k).mp now).1⟩, isMerge⟩
    · have whole := flatten_drop_joinPieces adjacent.1 (stands.length ▸ liveRight.lt)
        (fun k after before => by
          by_contra some_
          exact adjacent.2 k after before ((stands.live_iff k).mpr some_))
        (.inl (Nat.zero_le bigram.left))
      rwa [drop_zero, drop_zero, together] at whole
    · intro piece member some_
      rcases mem_or_eq_of_mem_set member with earlier | gone
      · rcases mem_or_eq_of_mem_set earlier with old | joined
        · exact known piece old some_
        · rw [joined, current]
          exact level.merges _ merge
      · exact absurd gone some_
  have fewer := liveCount_lt same (fun i now => ((live i).mp now).1) liveRight
    fun now => ((live _).mp now).2 rfl
  obtain ⟨first, firstRun, firstInv, firstSymbols, firstQueue⟩ := mergedInv.addNewBigram
    (symbolAt session.symbols bigram.left).prev (some bigram.left) (by
      intro l r isPrev isLeft
      cases isLeft
      have notNext : ¬ ((symbolAt session.symbols bigram.right).next = some bigram.left ∧
          bigram.left < session.symbols.length) := by
        intro back
        have beyond := (inv.linked.next _ _ liveRight back.1).2.1.1
        exact lt_asymm adjacent.1 beyond
      have prev := changes.prev bigram.left
      rw [if_neg notNext, isPrev] at prev
      obtain ⟨liveL, next⟩ := linked.prev _ _ liveMerged prev
      exact (linked.next _ _ liveL next).2.1)
  obtain ⟨second, secondRun, secondInv, secondSymbols, secondQueue⟩ := firstInv.addNewBigram
    (some bigram.left) (symbolAt session.symbols bigram.right).next (by
      intro l r isLeft isNext
      cases isLeft
      rw [firstSymbols]
      have next := changes.next bigram.left
      rw [if_pos rfl, isNext] at next
      exact (linked.next _ _ liveMerged next).2.1)
  refine ⟨second, by rw [firstRun, ok_bind, secondRun], secondInv, ?_⟩
  rw [Session.work, Session.work, secondSymbols, firstSymbols]
  dsimp only at firstQueue ⊢
  omega

theorem popMove_perm {queue others : List Bigram} {bigram : Bigram}
    (popped : popMove queue = some (bigram, others)) : (bigram :: others).Perm queue := by
  induction queue generalizing others with
  | nil => contradiction
  | cons first rest ih =>
    rw [popMove] at popped
    cases inner : popMove rest with
    | none =>
      rw [inner] at popped
      cases popped
      cases rest with
      | nil => exact List.Perm.refl _
      | cons second rest =>
        rw [popMove] at inner
        split at inner
        · split at inner <;> contradiction
        · contradiction
    | some found =>
      rw [inner] at popped
      dsimp only at popped
      split at popped
      · cases popped
        exact (List.Perm.swap _ _ _).trans ((ih inner).cons first)
      · cases popped
        exact List.Perm.refl _

theorem popMove_none {queue : List Bigram} (popped : popMove queue = none) : queue = [] := by
  cases queue with
  | nil => rfl
  | cons first rest =>
    rw [popMove] at popped
    split at popped
    · split at popped <;> contradiction
    · contradiction

theorem SessionInv.mergeLoop (level : ByteLevel vocab) (inv : SessionInv vocab bytes session)
    (enough : session.work ≤ fuel) :
    ∃ final, Vocab.mergeLoop vocab fuel session = .ok final ∧ SessionInv vocab bytes final ∧
      final.workQueue = [] := by
  induction fuel generalizing session with
  | zero =>
    rw [Session.work] at enough
    exact ⟨session, rfl, inv, length_eq_zero_iff.mp (by omega)⟩
  | succ fuel ih =>
    rw [Vocab.mergeLoop]
    cases popped : popMove session.workQueue with
    | none => exact ⟨session, rfl, inv, popMove_none popped⟩
    | some found =>
      obtain ⟨bigram, others⟩ := found
      have perm := popMove_perm popped
      have poppedInv : SessionInv vocab bytes { session with workQueue := others } :=
        ⟨inv.linked, fun other member =>
          inv.queue other (perm.subset (mem_cons_of_mem _ member)), inv.pieces⟩
      obtain ⟨next, step, nextInv, less⟩ := poppedInv.mergeBigram level
        (inv.queue bigram (perm.subset mem_cons_self))
      have lengths := perm.length_eq
      rw [length_cons] at lengths
      obtain ⟨final, run, finalInv, done⟩ := ih nextInv (by
        rw [Session.work] at enough
        have before : Session.work { session with workQueue := others } =
          3 * liveCount session.symbols + others.length := rfl
        omega)
      exact ⟨final, by dsimp only; rw [step, ok_bind, run], finalInv, done⟩

theorem charSymbols_cons (fuel index : Nat) (byte : UInt8) (rest : Bytes) :
    charSymbols (fuel + 1) index (encodeBytes (byte :: rest)) =
      { prev := if index = 0 then none else some (index - 1)
        next := if rest = [] then none else some (index + 1)
        text := encodeBytes (byte :: rest)
        n := (unicodeByteToUtf8 byte).length } ::
      charSymbols fuel (index + 1) (encodeBytes rest) := by
  have length := unicodeLenUtf8_unicodeByteToUtf8 byte
  obtain ⟨c, tail, split⟩ := exists_cons_of_ne_nil (unicodeByteToUtf8_ne_nil byte)
  have word : encodeBytes (byte :: rest) = c :: (tail ++ encodeBytes rest) := by
    rw [encodeBytes, flatMap_cons, split]
    rfl
  rw [split, headD_cons] at length
  have first : min (c :: (tail ++ encodeBytes rest)).length (unicodeLenUtf8 c) =
      (c :: tail).length := by
    rw [length, length_cons, length_cons, length_append]
    omega
  have ends : (c :: tail).length = (c :: (tail ++ encodeBytes rest)).length ↔ rest = [] := by
    rw [length_cons, length_cons, length_append, ← encodeBytes_eq_nil,
      ← length_eq_zero_iff]
    omega
  have left : (c :: (tail ++ encodeBytes rest)).drop (c :: tail).length = encodeBytes rest := by
    rw [← cons_append, drop_left]
  rw [word, charSymbols, split]
  simp only [first, ends, left]

theorem length_charSymbols (index : Nat) (enough : bytes.length ≤ fuel) :
    (charSymbols fuel index (encodeBytes bytes)).length = bytes.length := by
  induction bytes generalizing fuel index with
  | nil => cases fuel <;> rfl
  | cons byte rest ih =>
    cases fuel with
    | zero => contradiction
    | succ fuel =>
      rw [charSymbols_cons, length_cons, ih _ (Nat.le_of_succ_le_succ enough),
        length_cons]

theorem symbolAt_charSymbols (index : Nat) (enough : bytes.length ≤ fuel) {i : Nat}
    (inside : i < bytes.length) : symbolAt (charSymbols fuel index (encodeBytes bytes)) i =
      { prev := if index + i = 0 then none else some (index + i - 1)
        next := if i + 1 = bytes.length then none else some (index + i + 1)
        text := encodeBytes (bytes.drop i)
        n := (encodeBytes [bytes.getD i 0]).length } := by
  induction bytes generalizing fuel index i with
  | nil => contradiction
  | cons byte rest ih =>
    cases fuel with
    | zero => contradiction
    | succ fuel =>
      rw [charSymbols_cons]
      cases i with
      | zero =>
        simp [symbolAt, encodeBytes]
      | succ i =>
        have next := ih (index + 1) (Nat.le_of_succ_le_succ enough) (Nat.lt_of_succ_lt_succ inside)
        have place : index + 1 + i = index + (i + 1) := by omega
        have ends : i + 1 = rest.length ↔ i + 1 + 1 = (byte :: rest).length := by
          rw [length_cons]
          omega
        rw [place] at next
        simp only [ends] at next
        exact next

theorem StandsFor.tail {symbol : Symbol} {symbols : List Symbol} {piece : Bytes}
    {pieces : List Bytes} (stands : StandsFor (symbol :: symbols) (piece :: pieces)) :
    StandsFor symbols pieces :=
  ⟨Nat.succ.inj stands.length, fun i => stands.n (i + 1), fun i => stands.text (i + 1)⟩

theorem StandsFor.texts {symbols : List Symbol} {pieces : List Bytes}
    (stands : StandsFor symbols pieces) :
    (symbols.filter fun symbol => 0 < symbol.n).map Symbol.str =
      (pieces.filter fun piece => piece ≠ []).map encodeBytes := by
  induction symbols generalizing pieces with
  | nil => rw [length_eq_zero_iff.mp stands.length]; rfl
  | cons symbol rest ih =>
    cases pieces with
    | nil => cases stands.length
    | cons piece others =>
      have text : symbol.str = encodeBytes piece := stands.str 0
      have live : 0 < symbol.n ↔ piece ≠ [] := stands.live_iff 0
      rw [filter_cons, filter_cons]
      simp only [live]
      split
      · rw [map_cons, map_cons, text, ih stands.tail]
      · exact ih stands.tail

theorem sessionInv_charSymbols (level : ByteLevel vocab) (enough : bytes.length ≤ fuel) :
    SessionInv vocab bytes { symbols := charSymbols fuel 0 (encodeBytes bytes) } := by
  have length := length_charSymbols 0 enough
  have place {i : Nat} (inside : i < bytes.length) := symbolAt_charSymbols 0 enough inside
  have live_iff (i : Nat) : Live (charSymbols fuel 0 (encodeBytes bytes)) i ↔ i < bytes.length := by
    constructor
    · intro live
      have inside := live.lt
      rwa [length] at inside
    · intro inside
      rw [Live, place inside]
      exact length_pos_iff.mpr fun none_ => cons_ne_nil _ _ (encodeBytes_eq_nil.mp none_)
  refine ⟨⟨?_, ?_, ?_⟩, fun _ member => absurd member not_mem_nil,
    bytes.map fun byte => [byte], ⟨?_, ?_, ?_⟩, ?_, ?_⟩
  · intro i j live next
    have inside := (live_iff i).mp live
    rw [place inside] at next
    dsimp only at next
    split_ifs at next with ends
    cases next
    have insideNext : 0 + i + 1 < bytes.length := by omega
    refine ⟨(live_iff _).mpr insideNext, ⟨by omega, fun k after before => by omega⟩, ?_⟩
    rw [place insideNext]
    dsimp only
    rw [if_neg (by omega)]
    congr 1
    omega
  · intro i live next k after liveK
    have inside := (live_iff i).mp live
    have insideK := (live_iff k).mp liveK
    rw [place inside] at next
    dsimp only at next
    split_ifs at next with ends
    omega
  · intro i j live prev
    have inside := (live_iff i).mp live
    rw [place inside] at prev
    dsimp only at prev
    split_ifs at prev with first
    cases prev
    have insidePrev : 0 + i - 1 < bytes.length := by omega
    refine ⟨(live_iff _).mpr insidePrev, ?_⟩
    rw [place insidePrev]
    dsimp only
    rw [if_neg (by omega)]
    congr 1
    omega
  · rw [length_map, length]
  · intro i
    by_cases inside : i < bytes.length
    · have one : (bytes.map fun byte => [byte]).getD i [] = [bytes.getD i 0] := by
        rw [getD_eq_getElem _ _ (by rwa [length_map]), getElem_map,
          getD_eq_getElem _ _ inside]
      rw [one]
      exact congrArg Symbol.n (place inside)
    · have beyond : (charSymbols fuel 0 (encodeBytes bytes)).length ≤ i := by omega
      rw [getD_eq_default _ _ (by rw [length_map]; omega)]
      exact congrArg Symbol.n (symbolAt_of_le beyond)
  · intro i live
    have inside := (live_iff i).mp live
    rw [place inside, ← map_drop, ← flatMap_def, flatMap_singleton']
  · rw [← flatMap_def, flatMap_singleton']
  · intro piece member some_
    obtain ⟨byte, -, rfl⟩ := mem_map.mp member
    have known := level.bytes byte
    rwa [← flatMap_singleton unicodeByteToUtf8 byte] at known

theorem sessionInv_whole (known : bytes ≠ [] → IsToken vocab (encodeBytes bytes)) :
    SessionInv vocab bytes
      { symbols := [{ text := encodeBytes bytes, n := (encodeBytes bytes).length }] } := by
  have alone {symbol : Symbol} {i : Nat} (live : Live [symbol] i) : i = 0 :=
    Nat.lt_one_iff.mp live.lt
  refine ⟨⟨?_, ?_, ?_⟩, fun _ member => absurd member not_mem_nil, [bytes], ⟨rfl, ?_, ?_⟩, ?_, ?_⟩
  · intro i j live next
    cases alone live
    contradiction
  · intro i live next k after liveK
    cases alone liveK
    exact Nat.not_lt_zero i after
  · intro i j live prev
    cases alone live
    contradiction
  · intro i
    cases i with
    | zero => rfl
    | succ i => rfl
  · intro i live
    cases alone live
    exact (congrArg encodeBytes (append_nil bytes)).symm
  · exact append_nil bytes
  · intro piece member some_
    rw [mem_singleton.mp member] at some_ ⊢
    exact known some_

theorem sessionInv_wordSymbols (level : ByteLevel vocab) (whole : WholeWordsNormal vocab)
    (bytes : Bytes) :
    SessionInv vocab bytes { symbols := wordSymbols vocab (encodeBytes bytes) } := by
  have enough : bytes.length ≤ (encodeBytes bytes).length := by
    rw [encodeBytes_eq]
    exact (length_map byteCodePoint).symm.le.trans (length_le_flatMap_utf8Bytes _)
  unfold wordSymbols
  split
  · rename_i ignored
    exact sessionInv_whole fun _ => whole ignored.1 bytes ignored.2
  · rw [if_neg (by simp [level.encoded.1])]
    exact sessionInv_charSymbols level enough

theorem SessionInv.firstBigrams (inv : SessionInv vocab bytes session) (places : List Nat)
    (later : ∀ i ∈ places, 0 < i) : ∃ next, places.foldlM (fun session i =>
        Vocab.addNewBigram vocab session (some (i - 1)) (some i)) session = .ok next ∧
      SessionInv vocab bytes next ∧ next.symbols = session.symbols ∧
      next.workQueue.length ≤ session.workQueue.length + places.length := by
  induction places generalizing session with
  | nil => exact ⟨session, rfl, inv, rfl, le_refl _⟩
  | cons i rest ih =>
    obtain ⟨next, step, nextInv, symbols, queue⟩ := inv.addNewBigram (some (i - 1)) (some i) (by
      intro l r isLeft isRight
      cases isLeft
      cases isRight
      have positive := later i mem_cons_self
      exact ⟨by omega, fun k after before => by omega⟩)
    obtain ⟨final, run, finalInv, same, length⟩ := ih nextInv
      fun other member => later other (mem_cons_of_mem _ member)
    refine ⟨final, by rw [foldlM_cons, step, ok_bind, run], finalInv, same.trans symbols, ?_⟩
    rw [length_cons]
    omega

theorem mergeWord_pieces (level : ByteLevel vocab) (whole : WholeWordsNormal vocab) (bytes : Bytes) :
    ∃ pieces : List Bytes, mergeWord vocab (encodeBytes bytes) = .ok (pieces.map encodeBytes) ∧
      pieces.flatten = bytes ∧ ∀ piece ∈ pieces, IsToken vocab (encodeBytes piece) := by
  have start := sessionInv_wordSymbols level whole bytes
  unfold mergeWord
  generalize wordSymbols vocab (encodeBytes bytes) = symbols at *
  obtain ⟨first, pushed, firstInv, same, queue⟩ :=
    start.firstBigrams (List.range' 1 (symbols.length - 1)) fun i member =>
      (mem_range'_1.mp member).1
  rw [length_range'] at queue
  have live : liveCount first.symbols ≤ symbols.length := by
    rw [same]
    exact countP_le_length
  have enough : first.work ≤ 4 * symbols.length := by
    rw [Session.work]
    dsimp only [length_nil] at queue
    omega
  obtain ⟨final, run, finalInv, -⟩ := firstInv.mergeLoop level enough
  obtain ⟨pieces, stands, together, known⟩ := finalInv.pieces
  refine ⟨pieces.filter fun piece => piece ≠ [], ?_, ?_, ?_⟩
  · dsimp only
    rw [pushed, ok_bind, run, ok_bind, stands.texts]
  · rw [flatten_filter_ne_nil, together]
  · intro piece member
    obtain ⟨inside, some_⟩ := mem_filter.mp member
    exact known piece inside (by simpa using some_)

end

end LlamaCpp.Vocab
