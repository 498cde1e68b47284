import Mathlib.Data.List.Basic
import Mathlib.Order.Basic

/-!
# Blocks of addresses

A block is a half-open range of addresses.  `coverCount` counts the blocks of a list
that contain an address; two lists tile `[0, limit)` when each address below the
limit is in exactly one block of them and no other address is in any.
-/

set_option autoImplicit false

namespace LlamaCpp.Lib

open List

structure Block where
  offset : Nat
  size : Nat
deriving DecidableEq

namespace Block

def stop (b : Block) : Nat := b.offset + b.size

def covers (b : Block) (x : Nat) : Bool := decide (b.offset ≤ x ∧ x < b.offset + b.size)

@[simp] theorem covers_iff (b : Block) (x : Nat) :
    b.covers x = true ↔ b.offset ≤ x ∧ x < b.offset + b.size := by
  simp [covers]

theorem covers_toNat (b : Block) (x : Nat) :
    (b.covers x).toNat = if b.offset ≤ x ∧ x < b.offset + b.size then 1 else 0 := by
  by_cases inside : b.offset ≤ x ∧ x < b.offset + b.size
  · rw [if_pos inside, (covers_iff b x).mpr inside]
    rfl
  · rw [if_neg inside, Bool.eq_false_iff.mpr (fun covers => inside ((covers_iff b x).mp covers))]
    rfl

def Disjoint (a b : Block) : Prop := ∀ x, ¬ (a.covers x = true ∧ b.covers x = true)

theorem Disjoint.symm {a b : Block} (apart : a.Disjoint b) : b.Disjoint a :=
  fun x both => apart x ⟨both.2, both.1⟩

theorem Disjoint.stop_le {a b : Block} (apart : a.Disjoint b) (ordered : a.offset ≤ b.offset)
    (nonempty : 0 < b.size) : a.stop ≤ b.offset := by
  by_contra overlaps
  apply apart b.offset
  simp only [stop] at overlaps
  constructor
  · simp only [covers_iff]
    omega
  · simp only [covers_iff]
    omega

end Block

def coverCount (blocks : List Block) (x : Nat) : Nat := blocks.countP fun b => b.covers x

@[simp] theorem coverCount_nil (x : Nat) : coverCount [] x = 0 := rfl

@[simp] theorem coverCount_cons (b : Block) (blocks : List Block) (x : Nat) :
    coverCount (b :: blocks) x = (b.covers x).toNat + coverCount blocks x := by
  simp only [coverCount, countP_cons]
  cases b.covers x
  · simp
  · simp
    omega

@[simp] theorem coverCount_append (first second : List Block) (x : Nat) :
    coverCount (first ++ second) x = coverCount first x + coverCount second x := by
  simp [coverCount]

theorem coverCount_erase (blocks : List Block) (r : Block) (member : r ∈ blocks) (x : Nat) :
    (r.covers x).toNat + coverCount (blocks.erase r) x = coverCount blocks x := by
  have moved := (perm_cons_erase member).countP_eq fun b => b.covers x
  rw [← coverCount_cons]
  exact moved.symm

theorem coverCount_pos {blocks : List Block} {b : Block} {x : Nat} (member : b ∈ blocks)
    (covers : b.covers x = true) : 0 < coverCount blocks x :=
  countP_pos_iff.mpr ⟨b, member, covers⟩

theorem covers_join (offset first second : Nat) (x : Nat) :
    ((Block.mk offset (first + second)).covers x).toNat =
      ((Block.mk offset first).covers x).toNat +
        ((Block.mk (offset + first) second).covers x).toNat := by
  simp only [Block.covers_toNat]
  split_ifs <;> omega

/-- The free and the live blocks tile the addresses below `limit`. -/
structure Tiles (limit : Nat) (free live : List Block) : Prop where
  cover : ∀ x, coverCount free x + coverCount live x = if x < limit then 1 else 0
  freeBounded : ∀ b ∈ free, b.stop ≤ limit
  liveBounded : ∀ r ∈ live, r.stop ≤ limit

namespace Tiles

variable {limit : Nat} {free live : List Block}

variable {b r : Block} {pre post : List Block}

section

variable (tiles : Tiles limit free live)
include tiles

theorem disjoint_of_mem (inFree : b ∈ free) (inLive : r ∈ live) :
    b.Disjoint r := by
  intro x both
  have first := coverCount_pos inFree both.1
  have second := coverCount_pos inLive both.2
  have total := tiles.cover x
  split at total <;> omega

theorem live_pairwise : live.Pairwise Block.Disjoint := by
  have atMost : ∀ x, coverCount live x ≤ 1 := by
    intro x
    have total := tiles.cover x
    split at total <;> omega
  clear tiles
  induction live with
  | nil => exact List.Pairwise.nil
  | cons r rest ih =>
    refine List.Pairwise.cons ?_ (ih fun x => ?_)
    · intro other member x both
      have first := coverCount_pos member both.2
      have total := atMost x
      rw [coverCount_cons, both.1] at total
      simp only [Bool.toNat_true] at total
      omega
    · have total := atMost x
      rw [coverCount_cons] at total
      omega

theorem covered_iff (x : Nat) :
    ((∃ b ∈ free, b.covers x = true) ∨ ∃ r ∈ live, r.covers x = true) ↔ x < limit := by
  have total := tiles.cover x
  have someFree : (∃ b ∈ free, b.covers x = true) ↔ 0 < coverCount free x :=
    countP_pos_iff.symm
  have someLive : (∃ r ∈ live, r.covers x = true) ↔ 0 < coverCount live x :=
    countP_pos_iff.symm
  rw [someFree, someLive]
  split at total <;> omega

theorem permLive {other : List Block} (same : live.Perm other) :
    Tiles limit free other where
  cover x := by
    have total := tiles.cover x
    rw [coverCount, coverCount, same.countP_eq] at total
    exact total
  freeBounded := tiles.freeBounded
  liveBounded r member := tiles.liveBounded r (same.mem_iff.mpr member)

end

theorem carve {offset front rest : Nat}
    (tiles : Tiles limit (pre ++ ⟨offset, front + rest⟩ :: post) live) :
    Tiles limit (pre ++ ⟨offset + front, rest⟩ :: post) (⟨offset, front⟩ :: live) where
  cover x := by
    have total := tiles.cover x
    simp only [coverCount_append, coverCount_cons, covers_join] at total ⊢
    omega
  freeBounded b member := by
    have bounded := tiles.freeBounded ⟨offset, front + rest⟩ (by simp)
    rcases mem_append.mp member with before | later
    · exact tiles.freeBounded b (mem_append_left _ before)
    · rcases mem_cons.mp later with here | after
      · subst b
        simp only [Block.stop] at bounded ⊢
        omega
      · exact tiles.freeBounded b (mem_append_right _ (mem_cons_of_mem _ after))
  liveBounded r member := by
    rcases mem_cons.mp member with here | other
    · have bounded := tiles.freeBounded ⟨offset, front + rest⟩ (by simp)
      subst r
      simp only [Block.stop] at bounded ⊢
      omega
    · exact tiles.liveBounded r other

theorem dropEmpty {offset : Nat} (tiles : Tiles limit (pre ++ ⟨offset, 0⟩ :: post) live) :
    Tiles limit (pre ++ post) live where
  cover x := by
    have total := tiles.cover x
    have empty : ((Block.mk offset 0).covers x).toNat = 0 := by
      rw [Block.covers_toNat, if_neg]
      intro inside
      change offset ≤ x ∧ x < offset + 0 at inside
      omega
    simp only [coverCount_append, coverCount_cons] at total ⊢
    omega
  freeBounded b member := by
    apply tiles.freeBounded
    rcases mem_append.mp member with before | after
    · exact mem_append_left _ before
    · exact mem_append_right _ (mem_cons_of_mem _ after)
  liveBounded := tiles.liveBounded

theorem release (pre post : List Block) (r : Block) (member : r ∈ live)
    (tiles : Tiles limit (pre ++ post) live) :
    Tiles limit (pre ++ r :: post) (live.erase r) where
  cover x := by
    have total := tiles.cover x
    have moved := coverCount_erase live r member x
    simp only [coverCount_append, coverCount_cons] at total ⊢
    omega
  freeBounded b inside := by
    rcases mem_append.mp inside with before | later
    · exact tiles.freeBounded b (mem_append_left _ before)
    · rcases mem_cons.mp later with here | after
      · rw [here]
        exact tiles.liveBounded r member
      · exact tiles.freeBounded b (mem_append_right _ after)
  liveBounded s inside := tiles.liveBounded s (mem_of_mem_erase inside)

theorem join {a : Block} (meets : a.stop = b.offset)
    (tiles : Tiles limit (pre ++ a :: b :: post) live) :
    Tiles limit (pre ++ ⟨a.offset, a.size + b.size⟩ :: post) live where
  cover x := by
    obtain ⟨offset, size⟩ := a
    obtain ⟨next, more⟩ := b
    change offset + size = next at meets
    subst meets
    have total := tiles.cover x
    simp only [coverCount_append, coverCount_cons, covers_join] at total ⊢
    omega
  freeBounded c member := by
    have bounded := tiles.freeBounded b (by simp)
    rcases mem_append.mp member with before | later
    · exact tiles.freeBounded c (mem_append_left _ before)
    · rcases mem_cons.mp later with here | after
      · subst c
        simp only [Block.stop] at bounded meets ⊢
        omega
      · exact tiles.freeBounded c (by simp [after])
  liveBounded := tiles.liveBounded

theorem releaseAfter (member : r ∈ live) (meets : b.stop = r.offset)
    (tiles : Tiles limit (pre ++ b :: post) live) :
    Tiles limit (pre ++ ⟨b.offset, b.size + r.size⟩ :: post) (live.erase r) := by
  have split_ : pre ++ b :: post = (pre ++ [b]) ++ post := by simp
  rw [split_] at tiles
  have released := release (pre ++ [b]) post r member tiles
  rw [append_assoc] at released
  exact released.join meets

theorem releaseBefore (member : r ∈ live) (meets : r.stop = b.offset)
    (tiles : Tiles limit (pre ++ b :: post) live) :
    Tiles limit (pre ++ ⟨r.offset, b.size + r.size⟩ :: post) (live.erase r) := by
  have released := release pre (b :: post) r member tiles
  rw [Nat.add_comm]
  exact released.join meets

end Tiles

/-- Free blocks in the order of their addresses, none empty and none adjacent. -/
structure Coalesced (free : List Block) : Prop where
  sorted : free.Pairwise fun a b => a.stop < b.offset
  nonempty : ∀ b ∈ free, 0 < b.size

namespace Coalesced

theorem sublist {free kept : List Block} (coalesced : Coalesced free) (part : kept.Sublist free) :
    Coalesced kept where
  sorted := coalesced.sorted.sublist part
  nonempty b member := coalesced.nonempty b (part.subset member)

variable {pre post : List Block} {b : Block}

theorem insert (coalesced : Coalesced (pre ++ post)) (below : ∀ a ∈ pre, a.stop < b.offset)
    (above : ∀ c ∈ post, b.stop < c.offset) (nonempty : 0 < b.size) :
    Coalesced (pre ++ b :: post) where
  sorted := by
    obtain ⟨first, second, across⟩ := pairwise_append.mp coalesced.sorted
    refine pairwise_append.mpr ⟨first, pairwise_cons.mpr ⟨above, second⟩, ?_⟩
    intro a inPre c later
    rcases mem_cons.mp later with here | after
    · rw [here]
      exact below a inPre
    · exact across a inPre c after
  nonempty c member := by
    rcases mem_append.mp member with before | later
    · exact coalesced.nonempty c (mem_append_left _ before)
    · rcases mem_cons.mp later with here | after
      · rw [here]
        exact nonempty
      · exact coalesced.nonempty c (mem_append_right _ after)

section

variable (coalesced : Coalesced (pre ++ b :: post))
include coalesced

theorem before :
    ∀ a ∈ pre, a.stop < b.offset := fun a member =>
  (pairwise_append.mp coalesced.sorted).2.2 a member b (mem_cons_self ..)

theorem after : ∀ c ∈ post, b.stop < c.offset :=
  (pairwise_cons.mp (pairwise_append.mp coalesced.sorted).2.1).1

theorem without : Coalesced (pre ++ post) :=
  coalesced.sublist ((sublist_cons_self ..).append_left pre)

end

/-- What lies below the first free block lies below them all: it need not be strictly below,
if it is not where that block begins. -/
theorem lt_of_le_of_head_ne {free : List Block} (coalesced : Coalesced free) {x : Nat}
    (lowest : ∀ b ∈ free.head?, x ≤ b.offset) (apart : ∀ b ∈ free.head?, x ≠ b.offset) :
    ∀ b ∈ free, x < b.offset := by
  cases free with
  | nil => exact fun b impossible => by cases impossible
  | cons first rest =>
    have here : x < first.offset := Nat.lt_of_le_of_ne (lowest first rfl) (apart first rfl)
    intro b member
    rcases mem_cons.mp member with same | later
    · rw [same]
      exact here
    · have := (pairwise_cons.mp coalesced.sorted).1 b later
      simp only [Block.stop] at this
      omega

theorem replace {c : Block} (coalesced : Coalesced (pre ++ b :: post))
    (start : b.offset ≤ c.offset) (stop : c.stop ≤ b.stop) (nonempty : 0 < c.size) :
    Coalesced (pre ++ c :: post) :=
  coalesced.without.insert (fun a member => Nat.lt_of_lt_of_le (coalesced.before a member) start)
    (fun d member => Nat.lt_of_le_of_lt stop (coalesced.after d member)) nonempty

theorem eq_whole {limit : Nat} {free : List Block} (coalesced : Coalesced free)
    (positive : 0 < limit) (tiles : Tiles limit free []) : free = [⟨0, limit⟩] := by
  have covered : ∀ x, x < limit → ∃ b ∈ free, b.covers x = true := by
    intro x below
    rcases (tiles.covered_iff x).mpr below with found | ⟨r, impossible, _⟩
    · exact found
    · cases impossible
  cases free with
  | nil =>
    obtain ⟨b, impossible, _⟩ := covered 0 positive
    cases impossible
  | cons first rest =>
    have sorted := pairwise_cons.mp coalesced.sorted
    have firstZero : first.offset = 0 := by
      obtain ⟨b, member, covers⟩ := covered 0 positive
      rw [Block.covers_iff] at covers
      rcases mem_cons.mp member with here | later
      · rw [← here]
        omega
      · have := sorted.1 b later
        omega
    have bounded := tiles.freeBounded first (mem_cons_self ..)
    have whole : first.stop = limit := by
      by_contra short
      obtain ⟨b, member, covers⟩ := covered first.stop (by omega)
      rw [Block.covers_iff] at covers
      rcases mem_cons.mp member with here | later
      · rw [here] at covers
        simp only [Block.stop] at covers
        omega
      · have := sorted.1 b later
        omega
    have alone : rest = [] := by
      cases rest with
      | nil => rfl
      | cons next rest =>
        have after := sorted.1 next (mem_cons_self ..)
        have inside := tiles.freeBounded next (by simp)
        simp only [Block.stop] at inside whole after
        omega
    obtain ⟨offset, size⟩ := first
    simp only [Block.stop] at firstZero whole
    congr 2
    omega

end Coalesced

end LlamaCpp.Lib
