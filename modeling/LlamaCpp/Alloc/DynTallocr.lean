import LlamaCpp.Lib.Block
import Mathlib.Data.List.TakeWhile

/-!
# The dynamic tensor allocator

`DynTallocr` is `ggml_dyn_tallocr`; its free blocks are the first `n_free_blocks`
entries of the array.  Sizes and offsets are `size_t`, so every addition is taken
modulo `2^64`.  A call that aborts is `none`; so is an allocation without any free
block, which reads the entry before the array.
-/

set_option autoImplicit false

namespace LlamaCpp.Alloc

open LlamaCpp.Lib List Option

def sizeModulus : Nat := 18446744073709551616

/-- Addition of `size_t`. -/
def sizeAdd (a b : Nat) : Nat := (a + b) % sizeModulus

def sizeMax : Nat := sizeModulus - 1

def maxFreeBlocks : Nat := 256

def alignedOffset (offset alignment : Nat) : Nat :=
  sizeAdd offset ((alignment - offset % alignment) % alignment)

structure DynTallocr where
  alignment : Nat
  freeBlocks : List Block
  maxSize : Nat
deriving DecidableEq

/-- `ggml_dyn_tallocr_reset` on an allocator of the given alignment. -/
def dynTallocrReset (alignment : Nat) : DynTallocr where
  alignment := alignment
  freeBlocks := [⟨0, sizeMax / 2⟩]
  maxSize := 0

/-- The best-fit loop from index `i` on; of equally good blocks the later one wins. -/
def bestFitFrom (size : Nat) : Nat → List Block → Option Nat → Nat → Option Nat
  | _, [], bestFitBlock, _ => bestFitBlock
  | i, block :: rest, bestFitBlock, bestFitSize =>
    if size ≤ block.size ∧ block.size ≤ bestFitSize then
      bestFitFrom size (i + 1) rest (some i) block.size
    else bestFitFrom size (i + 1) rest bestFitBlock bestFitSize

def bestFitBlock (size : Nat) (blocks : List Block) : Option Nat :=
  match bestFitFrom size 0 blocks.dropLast none sizeMax with
  | some i => some i
  | none =>
    match blocks.getLast? with
    | some last => if size ≤ last.size then some (blocks.length - 1) else none
    | none => none

/-- Takes `size` bytes off the front of block `i`; an emptied block is removed. -/
def takeFront (blocks : List Block) (i size : Nat) : List Block :=
  let block := blocks.getD i ⟨0, 0⟩
  if block.size - size = 0 then blocks.eraseIdx i
  else blocks.set i ⟨sizeAdd block.offset size, block.size - size⟩

def dynTallocrAlloc (alloc : DynTallocr) (size : Nat) : Option (Nat × DynTallocr) :=
  let size := alignedOffset size alloc.alignment
  match bestFitBlock size alloc.freeBlocks with
  | none => none
  | some i =>
    let offset := (alloc.freeBlocks.getD i ⟨0, 0⟩).offset
    some (offset, { alloc with
      freeBlocks := takeFront alloc.freeBlocks i size
      maxSize := max alloc.maxSize (sizeAdd offset size) })

def blockEnd (block : Block) : Nat := sizeAdd block.offset block.size

def adjoins (offset size : Nat) (block : Block) : Bool :=
  decide (blockEnd block = offset) || decide (sizeAdd offset size = block.offset)

/-- Merges the freed range with block `i`, and then with the block after or before it. -/
def mergeAt (blocks : List Block) (i offset size : Nat) : List Block :=
  let block := blocks.getD i ⟨0, 0⟩
  if blockEnd block = offset then
    let grown : Block := ⟨block.offset, sizeAdd block.size size⟩
    match blocks[i + 1]? with
    | some next =>
      if blockEnd grown = next.offset then
        (blocks.set i ⟨grown.offset, sizeAdd grown.size next.size⟩).eraseIdx (i + 1)
      else blocks.set i grown
    | none => blocks.set i grown
  else
    let grown : Block := ⟨offset, sizeAdd block.size size⟩
    match i with
    | 0 => blocks.set 0 grown
    | k + 1 =>
      let previous := blocks.getD k ⟨0, 0⟩
      if blockEnd previous = offset then
        (blocks.set k ⟨previous.offset, sizeAdd previous.size grown.size⟩).eraseIdx (k + 1)
      else blocks.set (k + 1) grown

def insertBlock (blocks : List Block) (block : Block) : List Block :=
  blocks.takeWhile (fun b => decide (b.offset < block.offset)) ++
    block :: blocks.dropWhile fun b => decide (b.offset < block.offset)

def dynTallocrFreeTensor (alloc : DynTallocr) (offset size : Nat) : Option DynTallocr :=
  let size := alignedOffset size alloc.alignment
  match alloc.freeBlocks.findIdx? (adjoins offset size) with
  | some i => some { alloc with freeBlocks := mergeAt alloc.freeBlocks i offset size }
  | none =>
    if alloc.freeBlocks.length < maxFreeBlocks then
      some { alloc with freeBlocks := insertBlock alloc.freeBlocks ⟨offset, size⟩ }
    else none

theorem bestFitFrom_spec (size i : Nat) (blocks : List Block) (best : Option Nat)
    (bestFitSize j : Nat) (found : bestFitFrom size i blocks best bestFitSize = some j) :
    best = some j ∨ ∃ k, j = i + k ∧ ∃ block, blocks[k]? = some block ∧ size ≤ block.size := by
  induction blocks generalizing i best bestFitSize with
  | nil => exact Or.inl found
  | cons block rest ih =>
    simp only [bestFitFrom] at found
    split at found
    · rename_i better
      rcases ih _ _ _ found with here | ⟨k, index, later⟩
      · right
        rw [some.injEq] at here
        exact ⟨0, here.symm, block, rfl, better.1⟩
      · exact Or.inr ⟨k + 1, by omega, later⟩
    · rcases ih _ _ _ found with earlier | ⟨k, index, later⟩
      · exact Or.inl earlier
      · exact Or.inr ⟨k + 1, by omega, later⟩

theorem bestFitBlock_spec (size : Nat) (blocks : List Block) (i : Nat)
    (found : bestFitBlock size blocks = some i) :
    ∃ block, blocks[i]? = some block ∧ size ≤ block.size := by
  unfold bestFitBlock at found
  split at found
  · rename_i j search
    rw [some.injEq] at found
    subst j
    rcases bestFitFrom_spec size 0 _ none sizeMax i search with impossible | ⟨k, index, block, at_, fits⟩
    · cases impossible
    · rw [Nat.zero_add] at index
      subst k
      refine ⟨block, ?_, fits⟩
      rw [List.getElem?_dropLast] at at_
      split at at_
      · exact at_
      · cases at_
  · split at found
    · rename_i last atEnd
      split at found
      · rename_i fits
        rw [some.injEq] at found
        rw [← found, ← List.getLast?_eq_getElem?]
        exact ⟨last, atEnd, fits⟩
      · cases found
    · cases found

theorem exists_split {blocks : List Block} {i : Nat} {block : Block}
    (at_ : blocks[i]? = some block) :
    ∃ pre post, blocks = pre ++ block :: post ∧ pre.length = i := by
  obtain ⟨inside, equal⟩ := List.getElem?_eq_some_iff.mp at_
  refine ⟨blocks.take i, blocks.drop (i + 1), ?_, ?_⟩
  · rw [← equal, getElem_cons_drop, take_append_drop]
  · rw [length_take]
    omega

variable {size offset : Nat}

theorem dynTallocrAlloc_cases {alloc alloc' : DynTallocr}
    (success : dynTallocrAlloc alloc size = some (offset, alloc')) :
    ∃ pre block post, alloc.freeBlocks = pre ++ block :: post ∧
      alignedOffset size alloc.alignment ≤ block.size ∧ offset = block.offset ∧
      alloc' = { alloc with
        freeBlocks := if block.size - alignedOffset size alloc.alignment = 0 then pre ++ post
          else pre ++ ⟨sizeAdd block.offset (alignedOffset size alloc.alignment),
            block.size - alignedOffset size alloc.alignment⟩ :: post
        maxSize := max alloc.maxSize (sizeAdd block.offset (alignedOffset size alloc.alignment)) } := by
  unfold dynTallocrAlloc at success
  simp only at success
  split at success
  · cases success
  · rename_i i found
    obtain ⟨block, at_, fits⟩ := bestFitBlock_spec _ _ _ found
    obtain ⟨pre, post, split_, length⟩ := exists_split at_
    have here : alloc.freeBlocks.getD i ⟨0, 0⟩ = block := by
      rw [getD_eq_getElem?_getD, at_, getD_some]
    rw [here] at success
    cases success
    refine ⟨pre, block, post, split_, fits, rfl, ?_⟩
    simp only [takeFront, here]
    subst i
    split
    · rw [split_, eraseIdx_append_of_length_le (Nat.le_refl _), Nat.sub_self,
        eraseIdx_cons_zero]
    · rw [split_, set_append_right _ _ (Nat.le_refl _), Nat.sub_self, set_cons_zero]

/-- What freeing a range does to the free blocks: it joins the first block that adjoins
the range, and the next one too where the two meet, or becomes a block of its own. -/
inductive FreeOutcome (offset size : Nat) : List Block → List Block → Prop
  | joinBoth (pre : List Block) (block next : Block) (rest : List Block)
      (before : ∀ b ∈ pre, adjoins offset size b = false) (atEnd : blockEnd block = offset)
      (meets : blockEnd ⟨block.offset, sizeAdd block.size size⟩ = next.offset) :
      FreeOutcome offset size (pre ++ block :: next :: rest)
        (pre ++ ⟨block.offset, sizeAdd (sizeAdd block.size size) next.size⟩ :: rest)
  | joinEnd (pre : List Block) (block : Block) (post : List Block)
      (before : ∀ b ∈ pre, adjoins offset size b = false) (atEnd : blockEnd block = offset)
      (apart : ∀ next ∈ post.head?,
        blockEnd ⟨block.offset, sizeAdd block.size size⟩ ≠ next.offset) :
      FreeOutcome offset size (pre ++ block :: post)
        (pre ++ ⟨block.offset, sizeAdd block.size size⟩ :: post)
  | joinStart (pre : List Block) (block : Block) (post : List Block)
      (before : ∀ b ∈ pre, adjoins offset size b = false)
      (atStart : sizeAdd offset size = block.offset) :
      FreeOutcome offset size (pre ++ block :: post)
        (pre ++ ⟨offset, sizeAdd block.size size⟩ :: post)
  | insert (pre post : List Block) (apart : ∀ b ∈ pre ++ post, adjoins offset size b = false)
      (below : ∀ b ∈ pre, b.offset < offset) (above : ∀ b ∈ post.head?, offset ≤ b.offset) :
      FreeOutcome offset size (pre ++ post) (pre ++ ⟨offset, size⟩ :: post)

theorem adjoins_false {block : Block} (apart : adjoins offset size block = false) :
    blockEnd block ≠ offset ∧ sizeAdd offset size ≠ block.offset := by
  simpa [adjoins] using apart

theorem mergeAt_outcome (offset size : Nat) (pre : List Block) (block : Block) (post : List Block)
    (before : ∀ b ∈ pre, adjoins offset size b = false) (hit : adjoins offset size block = true) :
    FreeOutcome offset size (pre ++ block :: post)
      (mergeAt (pre ++ block :: post) pre.length offset size) := by
  have here : (pre ++ block :: post).getD pre.length ⟨0, 0⟩ = block := by
    simp
  have replaced : ∀ grown : Block, (pre ++ block :: post).set pre.length grown =
      pre ++ grown :: post := by
    intro grown
    rw [set_append_right _ _ (Nat.le_refl _), Nat.sub_self, set_cons_zero]
  unfold mergeAt
  simp only [here]
  by_cases atEnd : blockEnd block = offset
  · rw [if_pos atEnd]
    cases post with
    | nil =>
      have none_ : (pre ++ [block])[pre.length + 1]? = none := by simp
      rw [none_]
      rw [replaced]
      exact .joinEnd pre block [] before atEnd fun _ impossible => by cases impossible
    | cons next rest =>
      have some_ : (pre ++ block :: next :: rest)[pre.length + 1]? = some next := by
        rw [List.getElem?_append_right (Nat.le_add_right _ 1), Nat.add_sub_cancel_left]
        rfl
      rw [some_]
      simp only
      split
      · rename_i meets
        rw [replaced, eraseIdx_append_of_length_le (Nat.le_add_right _ 1),
          Nat.add_sub_cancel_left]
        exact .joinBoth pre block next rest before atEnd meets
      · rename_i apart
        rw [replaced]
        refine .joinEnd pre block (next :: rest) before atEnd fun other member => ?_
        rw [List.head?_cons, mem_some_iff] at member
        exact member ▸ apart
  · rw [if_neg atEnd]
    have atStart : sizeAdd offset size = block.offset := by
      simp only [adjoins, Bool.or_eq_true, decide_eq_true_eq] at hit
      exact hit.resolve_left atEnd
    have outcome := FreeOutcome.joinStart pre block post before atStart
    split
    · rename_i zero
      rw [← zero, replaced]
      exact outcome
    · rename_i k succ
      -- the block before was looked at first, so the range does not begin where it ends
      have apart : blockEnd ((pre ++ block :: post).getD k ⟨0, 0⟩) ≠ offset := by
        have inside : k < pre.length := by omega
        have previous : (pre ++ block :: post).getD k ⟨0, 0⟩ = pre[k] := by
          rw [getD_eq_getElem?_getD, List.getElem?_append_left inside,
            List.getElem?_eq_getElem inside, getD_some]
        rw [previous]
        exact (adjoins_false (before _ (getElem_mem inside))).1
      rw [if_neg apart]
      have : k + 1 = pre.length := succ.symm
      rw [this, replaced]
      exact outcome

theorem insertBlock_outcome (offset size : Nat) (blocks : List Block)
    (apart : ∀ b ∈ blocks, adjoins offset size b = false) :
    FreeOutcome offset size blocks (insertBlock blocks ⟨offset, size⟩) := by
  have whole : (blocks.takeWhile fun b => decide (b.offset < offset)) ++
      (blocks.dropWhile fun b => decide (b.offset < offset)) = blocks :=
    takeWhile_append_dropWhile
  have below : ∀ b ∈ blocks.takeWhile fun b => decide (b.offset < offset), b.offset < offset :=
    fun b member => by simpa using mem_takeWhile_imp member
  have above : ∀ b ∈ (blocks.dropWhile fun b => decide (b.offset < offset)).head?,
      offset ≤ b.offset := by
    intro b member
    have stops := List.head?_dropWhile_not (fun b : Block => decide (b.offset < offset)) blocks
    rw [mem_def.mp member] at stops
    exact Nat.le_of_not_lt (of_decide_eq_false stops)
  have apart' := apart
  rw [← whole] at apart'
  have outcome : FreeOutcome offset size _ _ := .insert _ _ apart' below above
  rw [whole] at outcome
  exact outcome

theorem dynTallocrFreeTensor_outcome {alloc alloc' : DynTallocr}
    (success : dynTallocrFreeTensor alloc offset size = some alloc') :
    FreeOutcome offset (alignedOffset size alloc.alignment) alloc.freeBlocks alloc'.freeBlocks ∧
      alloc'.alignment = alloc.alignment ∧ alloc'.maxSize = alloc.maxSize := by
  unfold dynTallocrFreeTensor at success
  simp only at success
  split at success
  · rename_i i found
    rw [List.findIdx?_eq_some_iff_getElem] at found
    obtain ⟨inside, hit, first⟩ := found
    obtain ⟨pre, post, split_, length⟩ := exists_split (List.getElem?_eq_getElem inside)
    have before : ∀ b ∈ pre, adjoins offset (alignedOffset size alloc.alignment) b = false := by
      intro b member
      obtain ⟨j, below, here⟩ := getElem_of_mem member
      have earlier := first j (by omega)
      have same : alloc.freeBlocks[j]? = some b := by
        rw [split_, List.getElem?_append_left below, List.getElem?_eq_getElem below, here]
      obtain ⟨_, equal⟩ := List.getElem?_eq_some_iff.mp same
      rw [equal] at earlier
      exact Bool.eq_false_iff.mpr earlier
    cases success
    refine ⟨?_, rfl, rfl⟩
    have outcome := mergeAt_outcome offset (alignedOffset size alloc.alignment) pre _ post before hit
    rw [← split_, length] at outcome
    exact outcome
  · rename_i absent
    rw [List.findIdx?_eq_none_iff] at absent
    split at success
    · cases success
      exact ⟨insertBlock_outcome _ _ _ absent, rfl, rfl⟩
    · cases success

end LlamaCpp.Alloc
