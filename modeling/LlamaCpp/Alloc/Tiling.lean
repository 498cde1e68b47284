import LlamaCpp.Alloc.DynTallocr
import LlamaCpp.Lib.Run

/-!
# What the dynamic allocator keeps

The padded live regions and the free blocks tile the addresses below
`SIZE_MAX/2`.  Every allocation carves its region out of a free block and every
free gives one back, so this needs no order among the free blocks.  That they
stay in order, non-empty and apart needs regions that are not empty, which the
padding of a size close to `2^64` does not give.
-/

set_option autoImplicit false

namespace LlamaCpp.Alloc

open LlamaCpp.Lib List

def capacity : Nat := sizeMax / 2

def padded (alignment : Nat) (r : Block) : Block := ⟨r.offset, alignedOffset r.size alignment⟩

theorem sizeAdd_eq {a b : Nat} (small : a + b < sizeModulus) : sizeAdd a b = a + b :=
  Nat.mod_eq_of_lt small

theorem capacity_lt : capacity < sizeModulus := by decide

variable {alignment : Nat}

theorem alignedOffset_eq {size : Nat} (positive : 0 < alignment)
    (fits : size + alignment ≤ sizeModulus) :
    alignedOffset size alignment = size + (alignment - size % alignment) % alignment := by
  apply sizeAdd_eq
  have := Nat.mod_lt (alignment - size % alignment) positive
  omega

theorem le_alignedOffset {size : Nat} (positive : 0 < alignment)
    (fits : size + alignment ≤ sizeModulus) : size ≤ alignedOffset size alignment := by
  rw [alignedOffset_eq positive fits]
  exact Nat.le_add_right ..

theorem dvd_alignedOffset {size : Nat} (positive : 0 < alignment)
    (fits : size + alignment ≤ sizeModulus) : alignment ∣ alignedOffset size alignment := by
  rw [alignedOffset_eq positive fits, Nat.dvd_iff_mod_eq_zero, Nat.add_mod, Nat.mod_mod]
  have below := Nat.mod_lt size positive
  by_cases multiple : size % alignment = 0
  · rw [multiple, Nat.sub_zero, Nat.mod_self, Nat.zero_mod]
  · rw [Nat.mod_eq_of_lt (show alignment - size % alignment < alignment by omega),
      show size % alignment + (alignment - size % alignment) = alignment by omega, Nat.mod_self]

section Tiling

variable {alloc alloc' : DynTallocr} {live : List Block} {offset size : Nat}

theorem dynTallocrReset_tiles (alignment : Nat) :
    Tiles capacity (dynTallocrReset alignment).freeBlocks [] where
  cover x := by
    simp only [dynTallocrReset, coverCount_cons, Block.covers_toNat, Nat.zero_le, true_and]
    congr
  freeBounded b member := by
    rw [dynTallocrReset, mem_singleton] at member
    subst b
    simp [Block.stop, capacity]
  liveBounded r member := by cases member

section

variable (tiles : Tiles capacity alloc.freeBlocks live)
include tiles

theorem dynTallocrAlloc_tiles
    (success : dynTallocrAlloc alloc size = some (offset, alloc')) :
    Tiles capacity alloc'.freeBlocks (padded alloc.alignment ⟨offset, size⟩ :: live) := by
  obtain ⟨pre, block, post, split_, fits, place, result⟩ := dynTallocrAlloc_cases success
  obtain ⟨start, room⟩ := block
  rw [split_] at tiles
  have inside := tiles.freeBounded ⟨start, room⟩ (by simp)
  have small := capacity_lt
  simp only [Block.stop] at inside
  have carved : Tiles capacity
      (pre ++ ⟨start + alignedOffset size alloc.alignment,
        room - alignedOffset size alloc.alignment⟩ :: post)
      (padded alloc.alignment ⟨offset, size⟩ :: live) := by
    rw [place]
    apply Tiles.carve
    rw [Nat.add_sub_cancel' fits]
    exact tiles
  rw [result]
  simp only
  split
  · rename_i used
    rw [used] at carved
    exact carved.dropEmpty
  · rw [sizeAdd_eq (by omega)]
    exact carved

theorem dynTallocrFreeTensor_tiles
    (member : padded alloc.alignment ⟨offset, size⟩ ∈ live)
    (success : dynTallocrFreeTensor alloc offset size = some alloc') :
    Tiles capacity alloc'.freeBlocks (live.erase (padded alloc.alignment ⟨offset, size⟩)) := by
  obtain ⟨outcome, -, -⟩ := dynTallocrFreeTensor_outcome success
  have bounded := tiles.liveBounded _ member
  have small := capacity_lt
  generalize alloc'.freeBlocks = after at outcome
  generalize alloc.freeBlocks = blocks at outcome tiles
  simp only [padded] at member bounded ⊢
  generalize alignedOffset size alloc.alignment = room at outcome member bounded
  simp only [Block.stop] at bounded
  cases outcome with
  | joinBoth pre block next rest before atEnd meets =>
    have inside := tiles.freeBounded block (by simp)
    have nextInside := tiles.freeBounded next (by simp)
    simp only [Block.stop, blockEnd] at inside nextInside atEnd meets
    rw [sizeAdd_eq (by omega)] at atEnd
    rw [sizeAdd_eq (show block.size + room < sizeModulus by omega)] at meets ⊢
    rw [sizeAdd_eq (by omega)] at meets
    rw [sizeAdd_eq (by omega)]
    have joined := tiles.releaseAfter member atEnd
    have touching : Block.stop ⟨block.offset, block.size + room⟩ = next.offset := meets
    exact joined.join touching
  | joinEnd pre block post before atEnd apart =>
    have inside := tiles.freeBounded block (by simp)
    simp only [Block.stop, blockEnd] at inside atEnd
    rw [sizeAdd_eq (by omega)] at atEnd
    rw [sizeAdd_eq (by omega)]
    exact tiles.releaseAfter member atEnd
  | joinStart pre block post before atStart =>
    have inside := tiles.freeBounded block (by simp)
    simp only [Block.stop] at inside
    rw [sizeAdd_eq (by omega)] at atStart
    rw [sizeAdd_eq (by omega)]
    exact tiles.releaseBefore member atStart
  | insert pre post apart below above => exact tiles.release _ _ _ member

theorem dynTallocrAlloc_coalesced
    (coalesced : Coalesced alloc.freeBlocks)
    (success : dynTallocrAlloc alloc size = some (offset, alloc')) :
    Coalesced alloc'.freeBlocks := by
  obtain ⟨pre, block, post, split_, fits, -, result⟩ := dynTallocrAlloc_cases success
  rw [split_] at tiles coalesced
  rw [result]
  split
  · exact coalesced.sublist ((sublist_cons_self ..).append_left pre)
  · have inside := tiles.freeBounded block (by simp)
    have small := capacity_lt
    simp only [Block.stop] at inside
    rw [sizeAdd_eq (by omega)]
    apply coalesced.replace
    · exact Nat.le_add_right ..
    · simp only [Block.stop]
      omega
    · simp only
      omega

theorem dynTallocrFreeTensor_coalesced
    (coalesced : Coalesced alloc.freeBlocks)
    (member : padded alloc.alignment ⟨offset, size⟩ ∈ live)
    (nonempty : 0 < alignedOffset size alloc.alignment)
    (success : dynTallocrFreeTensor alloc offset size = some alloc') :
    Coalesced alloc'.freeBlocks := by
  obtain ⟨outcome, -, -⟩ := dynTallocrFreeTensor_outcome success
  have bounded := tiles.liveBounded _ member
  have small := capacity_lt
  generalize alloc'.freeBlocks = after at outcome
  generalize alloc.freeBlocks = blocks at outcome tiles coalesced
  simp only [padded] at member bounded
  generalize alignedOffset size alloc.alignment = room at outcome member bounded nonempty
  simp only [Block.stop] at bounded
  -- the freed region lies between the free blocks below it and those above it
  have below : ∀ b ∈ blocks, b.offset ≤ offset → b.stop ≤ offset := fun b inFree ordered =>
    (tiles.disjoint_of_mem inFree member).stop_le ordered nonempty
  have above : ∀ b ∈ blocks, offset ≤ b.offset → offset + room ≤ b.offset :=
    fun b inFree ordered =>
      (tiles.disjoint_of_mem inFree member).symm.stop_le ordered (coalesced.nonempty b inFree)
  have inside : ∀ b ∈ blocks, b.stop ≤ capacity := tiles.freeBounded
  cases outcome with
  | joinBoth pre block next rest before atEnd meets =>
    have bounds := inside block (by simp)
    have nextBounds := inside next (by simp)
    simp only [Block.stop, blockEnd] at bounds nextBounds atEnd meets
    rw [sizeAdd_eq (by omega)] at atEnd
    rw [sizeAdd_eq (show block.size + room < sizeModulus by omega)] at meets ⊢
    rw [sizeAdd_eq (by omega)] at meets
    rw [sizeAdd_eq (by omega)]
    have asNext : pre ++ block :: next :: rest = (pre ++ [block]) ++ next :: rest := by simp
    have afterNext : ∀ c ∈ rest, next.stop < c.offset := (asNext ▸ coalesced).after
    have outer : Coalesced (pre ++ rest) := by
      have withoutBlock := coalesced.without
      exact withoutBlock.without
    refine outer.insert (fun a earlier => coalesced.before a earlier) ?_ ?_
    · intro c later
      have := afterNext c later
      simp only [Block.stop] at this ⊢
      omega
    · simp only
      omega
  | joinEnd pre block post before atEnd apart =>
    have bounds := inside block (by simp)
    simp only [Block.stop, blockEnd] at bounds atEnd apart
    rw [sizeAdd_eq (by omega)] at atEnd
    rw [sizeAdd_eq (show block.size + room < sizeModulus by omega)] at apart ⊢
    rw [sizeAdd_eq (by omega)] at apart
    refine coalesced.without.insert (fun a earlier => coalesced.before a earlier) ?_ ?_
    · have tail : Coalesced post := coalesced.sublist (by simp)
      refine tail.lt_of_le_of_head_ne (fun c first => ?_) apart
      have later := mem_of_mem_head? first
      have ordered := coalesced.after c later
      simp only [Block.stop] at ordered
      have := above c (by simp [later]) (by omega)
      simp only [Block.stop]
      omega
    · simp only
      omega
  | joinStart pre block post before atStart =>
    have bounds := inside block (by simp)
    simp only [Block.stop] at bounds
    rw [sizeAdd_eq (by omega)] at atStart
    rw [sizeAdd_eq (by omega)]
    apply coalesced.without.insert
    · intro a earlier
      have ordered := coalesced.before a earlier
      have apart := (adjoins_false (before a earlier)).1
      have aBounds := inside a (by simp [earlier])
      have lower := below a (by simp [earlier])
      have higher := above a (by simp [earlier])
      simp only [Block.stop, blockEnd] at ordered apart lower ⊢
      rw [sizeAdd_eq (by omega)] at apart
      omega
    · intro c later
      have := coalesced.after c later
      simp only [Block.stop] at this ⊢
      omega
    · simp only
      omega
  | insert pre post apart low high =>
    apply coalesced.insert
    · intro a earlier
      have lower := below a (mem_append_left _ earlier) (le_of_lt (low a earlier))
      have distinct := (adjoins_false (apart a (mem_append_left _ earlier))).1
      have aBounds := inside a (mem_append_left _ earlier)
      simp only [Block.stop, blockEnd] at lower distinct ⊢
      rw [sizeAdd_eq (by omega)] at distinct
      omega
    · have tail : Coalesced post := coalesced.sublist (sublist_append_right ..)
      refine tail.lt_of_le_of_head_ne (fun c first => ?_) fun c first => ?_
      · exact above c (mem_append_right _ (mem_of_mem_head? first)) (high c first)
      · have distinct := (adjoins_false
          (apart c (mem_append_right _ (mem_of_mem_head? first)))).2
        rw [sizeAdd_eq (by omega)] at distinct
        exact distinct
    · exact nonempty

end

end Tiling

end LlamaCpp.Alloc
