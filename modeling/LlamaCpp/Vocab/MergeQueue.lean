import LlamaCpp.Lib.GreedyMerge
import LlamaCpp.Vocab.BpeMerge

/-!
# A queue of merges

The queue of a session holds candidates that may be out of date.  One is still good if both symbols
have a text and together the size that was written down, since a symbol with a text only grows.
Each pair of neighbours with a key has a candidate with its present size, so the first good
candidate is the pair that greedy merging joins.
-/

set_option autoImplicit false

namespace LlamaCpp.Vocab

open LlamaCpp.Lib List

def symbolTexts (symbols : List Symbol) : List Bytes :=
  (symbols.filter fun symbol => 0 < symbol.n).map Symbol.str

def livePlaces (symbols : List Symbol) : List Nat :=
  (List.range symbols.length).filter fun i => 0 < (symbolAt symbols i).n

theorem mem_livePlaces {symbols : List Symbol} {i : Nat} :
    i ∈ livePlaces symbols ↔ Live symbols i := by
  rw [livePlaces, mem_filter, mem_range, decide_eq_true_eq]
  exact ⟨fun member => member.2, fun live => ⟨live.lt, live⟩⟩

theorem livePlaces_sorted (symbols : List Symbol) : (livePlaces symbols).Pairwise (· < ·) :=
  pairwise_lt_range.filter _

theorem symbolTexts_eq (symbols : List Symbol) :
    symbolTexts symbols = (livePlaces symbols).map fun i => (symbolAt symbols i).str := by
  have places : symbols = (List.range symbols.length).map (symbolAt symbols) := by
    refine ext_getElem (by simp) fun i inside _ => ?_
    rw [getElem_map, getElem_range, symbolAt, getD_eq_getElem _ _ inside]
  rw [symbolTexts]
  conv_lhs => rw [places]
  rw [filter_map, map_map]
  rfl

theorem isChain_of_sorted {places : List Nat} (sorted : places.Pairwise (· < ·)) :
    places.IsChain fun i j => i < j ∧ ∀ k ∈ places, i < k → ¬ k < j := by
  induction places with
  | nil => exact .nil
  | cons i rest ih =>
    cases rest with
    | nil => exact .singleton i
    | cons j rest =>
      obtain ⟨first, tail⟩ := pairwise_cons.mp sorted
      have behind := (pairwise_cons.mp tail).1
      refine .cons_cons ⟨first j mem_cons_self, ?_⟩ ((ih tail).imp_of_mem_imp ?_)
      · intro k member after before
        rcases mem_cons.mp member with isI | inRest
        · exact lt_irrefl i (isI ▸ after)
        · rcases mem_cons.mp inRest with isJ | later
          · exact lt_irrefl j (isJ ▸ before)
          · exact lt_asymm before (behind k later)
      · intro l r isL isR between
        refine ⟨between.1, fun k member after => ?_⟩
        rcases mem_cons.mp member with isI | inRest
        · exact absurd (isI ▸ first l isL) (lt_asymm after)
        · exact between.2 k inRest after

theorem exists_pair_of_sorted {places : List Nat} (sorted : places.Pairwise (· < ·))
    {left right : Nat} (isLeft : left ∈ places) (isRight : right ∈ places) (order : left < right)
    (between : ∀ k ∈ places, left < k → ¬ k < right) :
    ∃ front back, places = front ++ left :: right :: back := by
  obtain ⟨front, tail, rfl⟩ := append_of_mem isLeft
  obtain ⟨-, sortedTail, across⟩ := pairwise_append.mp sorted
  obtain ⟨afterLeft, sortedRest⟩ := pairwise_cons.mp sortedTail
  have inTail : right ∈ tail := by
    rcases mem_append.mp isRight with inFront | inBack
    · exact absurd (across right inFront left mem_cons_self) (lt_asymm order)
    · exact (mem_cons.mp inBack).resolve_left (ne_of_gt order)
  cases tail with
  | nil => contradiction
  | cons second back =>
    rcases mem_cons.mp inTail with isSecond | later
    · exact ⟨front, back, by rw [isSecond]⟩
    · exact absurd ((pairwise_cons.mp sortedRest).1 right later)
        (between second (by simp) (afterLeft second mem_cons_self))

theorem Linked.isChain {symbols : List Symbol} (linked : Linked symbols) :
    (livePlaces symbols).IsChain fun i j =>
      i < j ∧ Live symbols i ∧ (symbolAt symbols i).next = some j := by
  refine (isChain_of_sorted (livePlaces_sorted symbols)).imp_of_mem_imp ?_
  intro i j isI isJ between
  have liveI := mem_livePlaces.mp isI
  refine ⟨between.1, liveI, linked.next_of_adjacent liveI (mem_livePlaces.mp isJ) ⟨between.1, ?_⟩⟩
  exact fun k after before live => between.2 k (mem_livePlaces.mpr live) after before

theorem Merged.symbolTexts {symbols merged : List Symbol} {left right : Nat}
    (changes : Merged symbols merged left right) (same : merged.length = symbols.length)
    (liveLeft : Live symbols left) (liveRight : Live symbols right)
    (adjacent : Adjacent symbols left right) :
    ∃ front back, livePlaces symbols = front ++ left :: right :: back ∧
      Vocab.symbolTexts merged = front.map (fun i => (symbolAt symbols i).str) ++
        (symbolAt merged left).str :: back.map fun i => (symbolAt symbols i).str := by
  have sorted := livePlaces_sorted symbols
  obtain ⟨front, back, places⟩ := exists_pair_of_sorted sorted (mem_livePlaces.mpr liveLeft)
    (mem_livePlaces.mpr liveRight) adjacent.1 fun k member after before =>
      adjacent.2 k after before (mem_livePlaces.mp member)
  have live := changes.live_iff liveLeft (ne_of_lt adjacent.1)
  have fewer : livePlaces merged = (livePlaces symbols).filter (· ≠ right) := by
    rw [livePlaces, livePlaces, filter_filter, same]
    refine filter_congr fun i _ => ?_
    rw [Bool.eq_iff_iff]
    simpa [Live, and_comm] using live i
  rw [places] at sorted fewer
  obtain ⟨-, sortedTail, across⟩ := pairwise_append.mp sorted
  obtain ⟨afterLeft, sortedRest⟩ := pairwise_cons.mp sortedTail
  have afterRight := (pairwise_cons.mp sortedRest).1
  have str {i : Nat} (notLeft : i ≠ left) (notRight : i ≠ right) :
      (symbolAt merged i).str = (symbolAt symbols i).str := by
    rw [Symbol.str, Symbol.str, changes.text i, changes.n i, if_neg notRight, if_neg notLeft]
  have inFront {i : Nat} (member : i ∈ front) : i ≠ left ∧ i ≠ right :=
    ⟨ne_of_lt (across i member left mem_cons_self),
      ne_of_lt (across i member right (mem_cons_of_mem _ mem_cons_self))⟩
  have inBack {i : Nat} (member : i ∈ back) : i ≠ left ∧ i ≠ right :=
    ⟨ne_of_gt (afterLeft i (mem_cons_of_mem _ member)), ne_of_gt (afterRight i member)⟩
  refine ⟨front, back, places, ?_⟩
  have kept : (front ++ left :: right :: back).filter (· ≠ right) = front ++ left :: back := by
    rw [filter_append, filter_cons_of_pos (by simp [ne_of_lt adjacent.1]),
      filter_cons_of_neg (by simp), filter_eq_self.mpr, filter_eq_self.mpr]
    · exact fun i member => decide_eq_true (inBack member).2
    · exact fun i member => decide_eq_true (inFront member).2
  rw [symbolTexts_eq, fewer, kept, map_append, map_cons]
  congr 1
  · exact map_congr_left fun i member => str (inFront member).1 (inFront member).2
  · congr 1
    exact map_congr_left fun i member => str (inBack member).1 (inBack member).2

theorem Merged.live_left {symbols merged : List Symbol} {left right : Nat}
    (changes : Merged symbols merged left right) (liveLeft : Live symbols left)
    (apart : left ≠ right) : Live merged left :=
  (changes.live_iff liveLeft apart left).mpr ⟨liveLeft, apart⟩

def Follows (symbols : List Symbol) (left right : Option Nat) : Prop :=
  ∀ i j, left = some i → right = some j → Live symbols i ∧ (symbolAt symbols i).next = some j

section

variable {symbols merged : List Symbol} {left right : Nat}
  (changes : Merged symbols merged left right)
include changes

theorem Merged.prev_left (linked : Linked symbols) (liveRight : Live symbols right)
    (adjacent : Adjacent symbols left right) :
    (symbolAt merged left).prev = (symbolAt symbols left).prev := by
  rw [changes.prev left, if_neg]
  intro back
  have beyond := (linked.next _ _ liveRight back.1).2.1.1
  exact lt_asymm adjacent.1 beyond

theorem Merged.follows_prev (linked : Linked symbols) (liveLeft : Live symbols left)
    (liveRight : Live symbols right) (adjacent : Adjacent symbols left right) :
    Follows merged (symbolAt symbols left).prev (some left) := by
  intro i j isPrev isLeft
  cases isLeft
  have prev := (changes.prev_left linked liveRight adjacent).trans isPrev
  exact (changes.linked linked liveLeft liveRight adjacent).prev _ i
    (changes.live_left liveLeft (ne_of_lt adjacent.1)) prev

theorem Merged.follows_next (liveLeft : Live symbols left) (apart : left ≠ right) :
    Follows merged (some left) (symbolAt symbols right).next := by
  intro i j isLeft isNext
  cases isLeft
  have next := changes.next left
  rw [if_pos rfl, isNext] at next
  exact ⟨changes.live_left liveLeft apart, next⟩

end

structure Contiguous (symbols : List Symbol) : Prop where
  inside : ∀ i, Live symbols i → (symbolAt symbols i).n ≤ (symbolAt symbols i).text.length
  next : ∀ i j, Live symbols i → (symbolAt symbols i).next = some j →
    (symbolAt symbols i).text.drop (symbolAt symbols i).n = (symbolAt symbols j).text

section

variable {symbols : List Symbol} (contiguous : Contiguous symbols)
include contiguous

variable {i : Nat}

theorem Contiguous.length_str (live : Live symbols i) :
    (symbolAt symbols i).str.length = (symbolAt symbols i).n :=
  length_take_of_le (contiguous.inside i live)

theorem Contiguous.str_append {j : Nat} (live : Live symbols i)
    (next : (symbolAt symbols i).next = some j) :
    (symbolAt symbols i).str ++ (symbolAt symbols j).str =
      (symbolAt symbols i).text.take ((symbolAt symbols i).n + (symbolAt symbols j).n) := by
  rw [take_add, contiguous.next i j live next]
  rfl

theorem Contiguous.add_le {j : Nat} (live : Live symbols i) (liveNext : Live symbols j)
    (next : (symbolAt symbols i).next = some j) :
    (symbolAt symbols i).n + (symbolAt symbols j).n ≤ (symbolAt symbols i).text.length := by
  have rest := contiguous.inside j liveNext
  rw [← contiguous.next i j live next, length_drop] at rest
  have first := contiguous.inside i live
  omega

theorem Contiguous.merged {merged : List Symbol} {left right : Nat}
    (changes : Merged symbols merged left right) (linked : Linked symbols)
    (liveLeft : Live symbols left) (liveRight : Live symbols right)
    (adjacent : Adjacent symbols left right) : Contiguous merged := by
  have apart := ne_of_lt adjacent.1
  have live := changes.live_iff liveLeft apart
  have toRight := linked.next_of_adjacent liveLeft liveRight adjacent
  refine ⟨fun i now => ?_, fun i j now next => ?_⟩
  · obtain ⟨was, notRight⟩ := (live i).mp now
    rw [changes.n i, changes.text i, if_neg notRight]
    split_ifs with isLeft
    · rw [isLeft]
      exact contiguous.add_le liveLeft liveRight toRight
    · exact contiguous.inside i was
  · obtain ⟨was, notRight⟩ := (live i).mp now
    rw [changes.next i] at next
    rw [changes.n i, changes.text i, changes.text j, if_neg notRight]
    split_ifs at next ⊢ with isLeft
    · rw [isLeft, ← drop_drop, contiguous.next left right liveLeft toRight]
      exact contiguous.next right j liveRight next
    · exact contiguous.next i j was next

end

section

variable {K : Type*}

structure Candidate (K : Type*) where
  left : Nat
  right : Nat
  size : Nat
  key : K

def Candidate.Good (symbols : List Symbol) (candidate : Candidate K) : Prop :=
  Live symbols candidate.left ∧ Live symbols candidate.right ∧
    (symbolAt symbols candidate.left).n + (symbolAt symbols candidate.right).n = candidate.size

def Candidate.before [LinearOrder K] (candidate other : Candidate K) : Bool :=
  candidate.key < other.key || (candidate.key == other.key && candidate.left < other.left)

theorem popFirst_candidate [LinearOrder K] {α : Type*} (candidate : α → Candidate K)
    {before : α → α → Bool} (order : ∀ a b, before a b = (candidate a).before (candidate b))
    {queue others : List α} {item : α} (popped : popFirst before queue = some (item, others)) :
    ∀ other ∈ queue, (candidate item).key ≤ (candidate other).key ∧
      ((candidate other).key = (candidate item).key →
        (candidate item).left ≤ (candidate other).left) := by
  have not_before {a b : α} : before a b = false ↔ (candidate b).key ≤ (candidate a).key ∧
      ((candidate a).key = (candidate b).key → (candidate b).left ≤ (candidate a).left) := by
    rw [order, Candidate.before]
    simp
  have asymm (a b : α) (early : before a b = true) : before b a = false := by
    rw [not_before]
    rw [order, Candidate.before, Bool.or_eq_true, decide_eq_true_eq, Bool.and_eq_true, beq_iff_eq,
      decide_eq_true_eq] at early
    rcases early with lower | ⟨tie, left⟩
    · exact ⟨lower.le, fun tie => absurd tie (ne_of_gt lower)⟩
    · exact ⟨tie.le, fun _ => left.le⟩
  have trans (a b c : α) (first : before a b = false) (second : before b c = false) :
      before a c = false := by
    rw [not_before] at first second ⊢
    refine ⟨second.1.trans first.1, fun tie => ?_⟩
    have same := le_antisymm (tie ▸ second.1) first.1
    exact (second.2 (same.symm.trans tie)).trans (first.2 same)
  exact fun other member => not_before.mp (popFirst_best asymm trans popped other member)

def fresh (key : Bytes → Bytes → Option K) (symbols : List Symbol) (left right : Option Nat) :
    List (Candidate K) :=
  match left, right with
  | some i, some j =>
    ((key (symbolAt symbols i).str (symbolAt symbols j).str).map fun k =>
      { left := i, right := j, key := k
        size := (symbolAt symbols i).n + (symbolAt symbols j).n }).toList
  | _, _ => []

variable {key : Bytes → Bytes → Option K} {symbols : List Symbol}

theorem length_fresh_le (left right : Option Nat) : (fresh key symbols left right).length ≤ 1 := by
  unfold fresh
  split
  · simp
  · exact Nat.zero_le 1

variable {candidate : Candidate K}

theorem mem_fresh {left right : Option Nat} (member : candidate ∈ fresh key symbols left right) :
    left = some candidate.left ∧ right = some candidate.right ∧
      key (symbolAt symbols candidate.left).str (symbolAt symbols candidate.right).str =
        some candidate.key ∧
      candidate.size =
        (symbolAt symbols candidate.left).n + (symbolAt symbols candidate.right).n := by
  unfold fresh at member
  split at member
  · obtain ⟨k, here, rfl⟩ := Option.map_eq_some_iff.mp (Option.mem_toList.mp member)
    exact ⟨rfl, rfl, here, rfl⟩
  · contradiction

theorem mem_fresh_of_key {i j : Nat} {k : K}
    (here : key (symbolAt symbols i).str (symbolAt symbols j).str = some k) :
    ⟨i, j, (symbolAt symbols i).n + (symbolAt symbols j).n, k⟩ ∈
      fresh key symbols (some i) (some j) := by
  simp [fresh, here]

/-- The symbols of a candidate only grow, and as long as they do not it has their key. -/
structure Sound (key : Bytes → Bytes → Option K) (symbols : List Symbol)
    (candidate : Candidate K) : Prop where
  adjacent : Adjacent symbols candidate.left candidate.right
  size_le : Live symbols candidate.left → Live symbols candidate.right →
    candidate.size ≤ (symbolAt symbols candidate.left).n + (symbolAt symbols candidate.right).n
  key_eq : candidate.Good symbols →
    key (symbolAt symbols candidate.left).str (symbolAt symbols candidate.right).str =
      some candidate.key

def Covered (key : Bytes → Bytes → Option K) (symbols : List Symbol) (queue : List (Candidate K))
    (i j : Nat) : Prop :=
  ∀ candidate ∈ fresh key symbols (some i) (some j), candidate ∈ queue

structure MergeInv (key : Bytes → Bytes → Option K) (symbols : List Symbol)
    (queue : List (Candidate K)) : Prop where
  linked : Linked symbols
  contiguous : Contiguous symbols
  sound : ∀ candidate ∈ queue, Sound key symbols candidate
  covered : ∀ i j, Live symbols i → (symbolAt symbols i).next = some j → Covered key symbols queue i j

theorem fresh_sound (linked : Linked symbols) {left right : Option Nat}
    (follows : Follows symbols left right) (member : candidate ∈ fresh key symbols left right) :
    Sound key symbols candidate := by
  obtain ⟨isLeft, isRight, here, size⟩ := mem_fresh member
  obtain ⟨live, next⟩ := follows _ _ isLeft isRight
  exact ⟨(linked.next _ _ live next).2.1, fun _ _ => size.le, fun _ => here⟩

theorem good_of_mem_fresh {i j : Nat} (liveI : Live symbols i) (liveJ : Live symbols j)
    (member : candidate ∈ fresh key symbols (some i) (some j)) : candidate.Good symbols := by
  obtain ⟨isLeft, isRight, -, size⟩ := mem_fresh member
  cases isLeft
  cases isRight
  exact ⟨liveI, liveJ, size.symm⟩

theorem MergeInv.skip {queue others : List (Candidate K)} (inv : MergeInv key symbols queue)
    (perm : (candidate :: others).Perm queue) (outdated : ¬ candidate.Good symbols) :
    MergeInv key symbols others := by
  refine ⟨inv.linked, inv.contiguous, fun other member =>
    inv.sound other (perm.subset (mem_cons_of_mem _ member)), ?_⟩
  intro i j live next other member
  have liveNext := (inv.linked.next i j live next).1
  rcases mem_cons.mp (perm.symm.subset (inv.covered i j live next other member)) with same | left
  · exact absurd (same ▸ good_of_mem_fresh live liveNext member) outdated
  · exact left

theorem Sound.merged {merged : List Symbol} {other : Candidate K}
    (changes : Merged symbols merged candidate.left candidate.right) (linked : Linked symbols)
    (good : candidate.Good symbols) (adjacent : Adjacent symbols candidate.left candidate.right)
    (sound : Sound key symbols other) : Sound key merged other := by
  obtain ⟨liveLeft, liveRight, -⟩ := good
  have live := changes.live_iff liveLeft (ne_of_lt adjacent.1)
  have toRight := linked.next_of_adjacent liveLeft liveRight adjacent
  -- the left symbol of a pair that is still there has not taken in the right one
  have leftKept (now : Live merged other.left) (nowRight : Live merged other.right) :
      other.left ≠ candidate.left := by
    intro same
    obtain ⟨was, notRight⟩ := (live _).mp nowRight
    have next := linked.next_of_adjacent ((live _).mp now).1 was sound.adjacent
    rw [same, toRight, Option.some.injEq] at next
    exact notRight next.symm
  have grown : 0 < (symbolAt symbols candidate.right).n := liveRight
  refine ⟨⟨sound.adjacent.1, fun k after before now =>
    sound.adjacent.2 k after before ((live k).mp now).1⟩, fun now nowRight => ?_, fun goodNow => ?_⟩
  · have size := sound.size_le ((live _).mp now).1 ((live _).mp nowRight).1
    rw [changes.n other.left, changes.n other.right, if_neg ((live _).mp now).2,
      if_neg (leftKept now nowRight), if_neg ((live _).mp nowRight).2]
    split_ifs with isLeft
    · rw [isLeft] at size
      omega
    · exact size
  · obtain ⟨now, nowRight, size⟩ := goodNow
    have wasLeft := (live _).mp now
    have wasRight := (live _).mp nowRight
    have least := sound.size_le wasLeft.1 wasRight.1
    rw [changes.n other.left, changes.n other.right, if_neg wasLeft.2,
      if_neg (leftKept now nowRight), if_neg wasRight.2] at size
    split_ifs at size with isLeft
    · rw [isLeft] at least
      omega
    · have here := sound.key_eq ⟨wasLeft.1, wasRight.1, size⟩
      rw [Symbol.str, Symbol.str, changes.text, changes.text, changes.n other.left,
        changes.n other.right, if_neg wasLeft.2, if_neg (leftKept now nowRight), if_neg wasRight.2,
        if_neg isLeft]
      exact here

theorem MergeInv.merge [LinearOrder K] {queue others : List (Candidate K)} {merged : List Symbol}
    (inv : MergeInv key symbols queue) (perm : (candidate :: others).Perm queue)
    (good : candidate.Good symbols)
    (best : ∀ other ∈ queue, candidate.key ≤ other.key ∧ (other.key = candidate.key → candidate.left ≤ other.left))
    (changes : Merged symbols merged candidate.left candidate.right)
    (same : merged.length = symbols.length) : MergeInv key merged (others ++
        fresh key merged (symbolAt symbols candidate.left).prev (some candidate.left) ++
        fresh key merged (some candidate.left) (symbolAt symbols candidate.right).next) ∧
      naiveMerge key (symbolTexts merged) = naiveMerge key (symbolTexts symbols) := by
  have sound := inv.sound candidate (perm.subset mem_cons_self)
  obtain ⟨liveLeft, liveRight, size⟩ := good
  have adjacent := sound.adjacent
  have apart := ne_of_lt adjacent.1
  have live := changes.live_iff liveLeft apart
  have toRight := inv.linked.next_of_adjacent liveLeft liveRight adjacent
  have linked := changes.linked inv.linked liveLeft liveRight adjacent
  have contiguous := inv.contiguous.merged changes inv.linked liveLeft liveRight adjacent
  have prev := changes.prev_left inv.linked liveRight adjacent
  have next := changes.next candidate.left
  rw [if_pos rfl] at next
  refine ⟨⟨linked, contiguous, ?_, ?_⟩, ?_⟩
  · intro other member
    rcases mem_append.mp member with earlier | onRight
    · rcases mem_append.mp earlier with old | onLeft
      · exact (inv.sound other (perm.subset (mem_cons_of_mem _ old))).merged changes inv.linked
          ⟨liveLeft, liveRight, size⟩ adjacent
      · exact fresh_sound linked (changes.follows_prev inv.linked liveLeft liveRight adjacent) onLeft
    · exact fresh_sound linked (changes.follows_next liveLeft apart) onRight
  · intro i j liveI follows other member
    obtain ⟨liveJ, between, back⟩ := linked.next i j liveI follows
    by_cases fromLeft : i = candidate.left
    · rw [fromLeft, next] at follows
      rw [fromLeft, ← follows] at member
      exact mem_append_right _ member
    by_cases toLeft : j = candidate.left
    · rw [toLeft, prev] at back
      rw [toLeft, ← back] at member
      exact mem_append_left _ (mem_append_right _ member)
    -- a pair that the merge does not touch
    have wasI := (live i).mp liveI
    have wasJ := (live j).mp liveJ
    rw [changes.next i, if_neg fromLeft] at follows
    have untouched : fresh key merged (some i) (some j) = fresh key symbols (some i) (some j) := by
      simp [fresh, Symbol.str, changes.text, changes.n, if_neg wasI.2, if_neg wasJ.2,
        if_neg fromLeft, if_neg toLeft]
    rw [untouched] at member
    have earlier := inv.covered i j wasI.1 follows other member
    rcases mem_cons.mp (perm.symm.subset earlier) with isCandidate | left
    · have isI := (mem_fresh member).1
      rw [isCandidate, Option.some.injEq] at isI
      exact absurd isI fromLeft
    · exact mem_append_left _ (mem_append_left _ left)
  · obtain ⟨front, back, places, texts⟩ := changes.symbolTexts same liveLeft liveRight adjacent
    have chain := inv.linked.isChain
    have sorted := livePlaces_sorted symbols
    -- the queue knows the key of each pair of neighbours
    have queued {i j : Nat} (liveI : Live symbols i) (follows : (symbolAt symbols i).next = some j)
        {k : K} (here : key (symbolAt symbols i).str (symbolAt symbols j).str = some k) :
        candidate.key ≤ k ∧ (k = candidate.key → candidate.left ≤ i) :=
      best _ (inv.covered i j liveI follows _ (mem_fresh_of_key here))
    rw [places, isChain_append_cons_cons] at chain
    obtain ⟨before, -, beyond⟩ := chain
    rw [places] at sorted
    have inFront := (pairwise_append.mp sorted).2.2
    have joined : (symbolAt merged candidate.left).str =
        (symbolAt symbols candidate.left).str ++ (symbolAt symbols candidate.right).str := by
      rw [Symbol.str, changes.text, changes.n, if_neg apart, if_pos rfl,
        inv.contiguous.str_append liveLeft toRight]
    rw [symbolTexts_eq symbols, texts, places, map_append, joined]
    refine (naiveMerge_between (bestPair_between (sound.key_eq ⟨liveLeft, liveRight, size⟩) ?_ ?_)).symm
    · have firsts : front.map (fun i => (symbolAt symbols i).str) ++
          [(symbolAt symbols candidate.left).str] =
            (front ++ [candidate.left]).map fun i => (symbolAt symbols i).str := by simp
      rw [firsts, isChain_map]
      refine before.imp_of_mem_imp ?_
      intro i j isI isJ pair k here
      obtain ⟨least, leftmost⟩ := queued pair.2.1 pair.2.2 here
      have early : i < candidate.left := by
        rcases mem_append.mp isJ with inside | isLast
        · exact pair.1.trans (inFront j inside _ mem_cons_self)
        · exact mem_singleton.mp isLast ▸ pair.1
      exact lt_of_le_of_ne least fun tie => absurd (leftmost tie.symm) (Nat.not_le_of_lt early)
    · rw [NoneBelow, ← map_cons (f := fun i => (symbolAt symbols i).str), isChain_map]
      exact beyond.imp fun i j pair k here => (queued pair.2.1 pair.2.2 here).1

theorem MergeInv.done [LinearOrder K] (inv : MergeInv key symbols []) :
    naiveMerge key (symbolTexts symbols) = symbolTexts symbols := by
  refine naiveMerge_of_done ?_
  rw [symbolTexts_eq, isChain_map]
  refine inv.linked.isChain.imp fun i j pair => ?_
  cases here : key (symbolAt symbols i).str (symbolAt symbols j).str with
  | none => rfl
  | some k =>
    have member := inv.covered i j pair.2.1 pair.2.2 _ (mem_fresh_of_key here)
    contradiction

end

def wordChars : Nat → Bytes → List Bytes
  | 0, _ => []
  | _ + 1, [] => []
  | fuel + 1, c :: rest =>
    let charLen := min (c :: rest).length (unicodeLenUtf8 c)
    (c :: rest).take charLen :: wordChars fuel ((c :: rest).drop charLen)

theorem charLen_pos (c : UInt8) (rest : Bytes) :
    0 < min (c :: rest).length (unicodeLenUtf8 c) :=
  lt_min (Nat.succ_pos _) (unicodeLenUtf8_pos c)

/-- The symbol of each character is linked to those beside it and its text goes on with theirs. -/
structure CharChain (index : Nat) (word : Bytes) (symbols : List Symbol) : Prop where
  head : (symbolAt symbols 0).text = word
  empty : symbols = [] ↔ word = []
  text : ∀ i, i < symbols.length → 0 < (symbolAt symbols i).n ∧
    (symbolAt symbols i).n ≤ (symbolAt symbols i).text.length
  links : ∀ i, i < symbols.length →
    (symbolAt symbols i).prev = (if index + i = 0 then none else some (index + i - 1)) ∧
    (symbolAt symbols i).next = (if i + 1 = symbols.length then none else some (index + i + 1))
  next : ∀ i, i + 1 < symbols.length →
    (symbolAt symbols i).text.drop (symbolAt symbols i).n = (symbolAt symbols (i + 1)).text

theorem charSymbols_chain {fuel : Nat} (index : Nat) {word : Bytes} (enough : word.length ≤ fuel) :
    CharChain index word (charSymbols fuel index word) := by
  induction fuel generalizing index word with
  | zero =>
    rw [length_eq_zero_iff.mp (Nat.le_zero.mp enough)]
    exact ⟨rfl, iff_of_true rfl rfl, by simp [charSymbols], by simp [charSymbols],
      by simp [charSymbols]⟩
  | succ fuel ih =>
    cases word with
    | nil =>
      exact ⟨rfl, iff_of_true rfl rfl, by simp [charSymbols], by simp [charSymbols],
        by simp [charSymbols]⟩
    | cons c rest =>
      have positive := charLen_pos c rest
      have inside := min_le_left (c :: rest).length (unicodeLenUtf8 c)
      have shorter : ((c :: rest).drop (min (c :: rest).length (unicodeLenUtf8 c))).length ≤
          fuel := by
        rw [length_drop]
        omega
      have tail := ih (index + 1) shorter
      rw [charSymbols]
      generalize min (c :: rest).length (unicodeLenUtf8 c) = charLen at *
      generalize charSymbols fuel (index + 1) ((c :: rest).drop charLen) = others at *
      have last : charLen = (c :: rest).length ↔ others = [] := by
        rw [tail.empty, drop_eq_nil_iff]
        omega
      refine ⟨rfl, iff_of_false (cons_ne_nil _ _) (cons_ne_nil _ _), ?_, ?_, ?_⟩
      · intro i short
        cases i with
        | zero => exact ⟨positive, inside⟩
        | succ i => exact tail.text i (Nat.lt_of_succ_lt_succ short)
      · intro i short
        cases i with
        | zero =>
          refine ⟨rfl, ?_⟩
          have ends : others.length = 0 ↔ charLen = (c :: rest).length := by
            rw [last, length_eq_zero_iff]
          show (if charLen = (c :: rest).length then none else some (index + 1)) =
            if 0 + 1 = others.length + 1 then none else some (index + 0 + 1)
          split_ifs <;> first | rfl | omega
        | succ i =>
          obtain ⟨prev, next⟩ := tail.links i (Nat.lt_of_succ_lt_succ short)
          refine ⟨prev.trans ?_, next.trans ?_⟩
          · rw [if_neg (by omega)]
            congr 1
            omega
          · rw [length_cons]
            split_ifs
            · rfl
            · omega
            · omega
            · congr 1
              omega
      · intro i short
        cases i with
        | zero => exact tail.head.symm
        | succ i => exact tail.next i (Nat.lt_of_succ_lt_succ short)

theorem symbolTexts_charSymbols (fuel index : Nat) (word : Bytes) :
    symbolTexts (charSymbols fuel index word) = wordChars fuel word := by
  induction fuel generalizing index word with
  | zero => rfl
  | succ fuel ih =>
    cases word with
    | nil => rfl
    | cons c rest =>
      rw [charSymbols, symbolTexts]
      rw [filter_cons, if_pos (decide_eq_true (charLen_pos c rest))]
      exact congrArg (_ :: ·) (ih _ _)

section

variable {K : Type*} {key : Bytes → Bytes → Option K} {symbols : List Symbol} {word : Bytes}

theorem CharChain.linked (chain : CharChain 0 word symbols) : Linked symbols := by
  have live {i : Nat} (inside : i < symbols.length) : Live symbols i := (chain.text i inside).1
  refine ⟨?_, ?_, ?_⟩
  · intro i j liveI next
    rw [(chain.links i liveI.lt).2] at next
    split_ifs at next with last
    cases next
    have inside : 0 + i + 1 < symbols.length := by
      have := liveI.lt
      omega
    refine ⟨live inside, ⟨by omega, fun k after before => by omega⟩, ?_⟩
    rw [(chain.links _ inside).1, if_neg (by omega)]
    congr 1
    omega
  · intro i liveI next k after liveK
    rw [(chain.links i liveI.lt).2] at next
    split_ifs at next with last
    have := liveK.lt
    omega
  · intro i j liveI prev
    rw [(chain.links i liveI.lt).1] at prev
    split_ifs at prev with first
    cases prev
    have inside : 0 + i - 1 < symbols.length := by
      have := liveI.lt
      omega
    have here := liveI.lt
    refine ⟨live inside, ?_⟩
    rw [(chain.links _ inside).2, if_neg (by omega)]
    congr 1
    omega

theorem CharChain.contiguous (chain : CharChain 0 word symbols) : Contiguous symbols := by
  refine ⟨fun i live => (chain.text i live.lt).2, fun i j live next => ?_⟩
  rw [(chain.links i live.lt).2] at next
  split_ifs at next with last
  cases next
  rw [chain.next i (by have := live.lt; omega), zero_add]

def seeds (key : Bytes → Bytes → Option K) (symbols : List Symbol) (places : List Nat) :
    List (Candidate K) :=
  places.flatMap fun i => fresh key symbols (some (i - 1)) (some i)

theorem seeds_cons (i : Nat) (rest : List Nat) :
    seeds key symbols (i :: rest) =
      fresh key symbols (some (i - 1)) (some i) ++ seeds key symbols rest := flatMap_cons

theorem length_seeds_le (places : List Nat) : (seeds key symbols places).length ≤ places.length := by
  induction places with
  | nil => exact le_refl 0
  | cons i rest ih =>
    have one := @length_fresh_le _ key symbols (some (i - 1)) (some i)
    rw [seeds_cons, length_append, length_cons]
    omega

theorem CharChain.follows (chain : CharChain 0 word symbols) {i : Nat}
    (place : i ∈ List.range' 1 (symbols.length - 1)) : Follows symbols (some (i - 1)) (some i) := by
  intro l r isLeft isRight
  cases isLeft
  cases isRight
  obtain ⟨positive, short⟩ := mem_range'_1.mp place
  have inside : i - 1 < symbols.length := by omega
  refine ⟨(chain.text _ inside).1, ?_⟩
  rw [(chain.links _ inside).2, if_neg (by omega)]
  congr 1
  omega

theorem CharChain.mergeInv (chain : CharChain 0 word symbols) :
    MergeInv key symbols (seeds key symbols (List.range' 1 (symbols.length - 1))) := by
  have linked := chain.linked
  refine ⟨linked, chain.contiguous, ?_, ?_⟩
  · intro candidate member
    obtain ⟨i, place, isFresh⟩ := mem_flatMap.mp member
    exact fresh_sound linked (chain.follows place) isFresh
  · intro i j live next candidate member
    have inside := (linked.next i j live next).1.lt
    rw [(chain.links i live.lt).2] at next
    split_ifs at next with last
    cases next
    refine mem_flatMap.mpr ⟨0 + i + 1, mem_range'_1.mpr ⟨by omega, by omega⟩, ?_⟩
    rwa [Nat.zero_add i] at *

end

end LlamaCpp.Vocab
