import LlamaCpp.Alloc.Tiling

/-!
# Runs of the dynamic allocator

A run keeps, beside the allocator, the regions that are live and those that were
ever handed out, each by its offset and the size asked for.  A request is
reasonable when it is not empty and its padding does not exceed `SIZE_MAX`; then
every state reached keeps the allocator's whole contract.  A larger request is not
refused: its padded size wraps to zero and the region it gets is empty.
-/

set_option autoImplicit false

namespace LlamaCpp.Alloc

open LlamaCpp.Lib List

structure TallocRun where
  alloc : DynTallocr
  live : List Block
  handed : List Block
deriving DecidableEq

inductive TallocOp
  | alloc (size : Nat)
  | free (offset size : Nat)
deriving DecidableEq

def tallocStep (run : TallocRun) : TallocOp → Option TallocRun
  | .alloc size =>
    match dynTallocrAlloc run.alloc size with
    | some (offset, alloc) =>
      some ⟨alloc, ⟨offset, size⟩ :: run.live, ⟨offset, size⟩ :: run.handed⟩
    | none => none
  | .free offset size =>
    if ⟨offset, size⟩ ∈ run.live then
      match dynTallocrFreeTensor run.alloc offset size with
      | some alloc => some { run with alloc := alloc, live := run.live.erase ⟨offset, size⟩ }
      | none => none
    else none

def startRun (alignment : Nat) : TallocRun := ⟨dynTallocrReset alignment, [], []⟩

def paddedStop (alignment : Nat) (r : Block) : Nat := (padded alignment r).stop

structure TallocContract (run : TallocRun) : Prop where
  liveDisjoint : (run.live.map (padded run.alloc.alignment)).Pairwise Block.Disjoint
  freeDisjoint : ∀ b ∈ run.alloc.freeBlocks, ∀ r ∈ run.live,
    b.Disjoint (padded run.alloc.alignment r)
  coalesced : Coalesced run.alloc.freeBlocks
  covered : ∀ x, ((∃ b ∈ run.alloc.freeBlocks, b.covers x = true) ∨
    ∃ r ∈ run.live, (padded run.alloc.alignment r).covers x = true) ↔ x < sizeMax / 2
  aligned : ∀ r ∈ run.handed, run.alloc.alignment ∣ r.offset
  maxSize : run.alloc.maxSize =
    (run.handed.map (paddedStop run.alloc.alignment)).foldr max 0
  restored : run.live = [] → run.alloc.freeBlocks = [⟨0, sizeMax / 2⟩]

def Reasonable (run : TallocRun) : TallocOp → Prop
  | .alloc size => 1 ≤ size ∧ size + run.alloc.alignment ≤ sizeModulus
  | .free _ _ => True

instance (run : TallocRun) (op : TallocOp) : Decidable (Reasonable run op) := by
  cases op with
  | alloc size => exact inferInstanceAs (Decidable (_ ∧ _))
  | free offset size => exact inferInstanceAs (Decidable True)

structure TallocInv (alignment : Nat) (run : TallocRun) : Prop where
  sameAlignment : run.alloc.alignment = alignment
  tiles : Tiles capacity run.alloc.freeBlocks (run.live.map (padded alignment))
  coalesced : Coalesced run.alloc.freeBlocks
  freeAligned : ∀ b ∈ run.alloc.freeBlocks, alignment ∣ b.offset
  handedAligned : ∀ r ∈ run.handed, alignment ∣ r.offset
  liveHanded : ∀ r ∈ run.live, r ∈ run.handed
  sizes : ∀ r ∈ run.handed, 1 ≤ r.size ∧ r.size + alignment ≤ sizeModulus
  maxSize : run.alloc.maxSize = (run.handed.map (paddedStop alignment)).foldr max 0

theorem startRun_inv (alignment : Nat) : TallocInv alignment (startRun alignment) where
  sameAlignment := rfl
  tiles := dynTallocrReset_tiles alignment
  coalesced := {
    sorted := pairwise_singleton ..
    nonempty := by
      intro b member
      rw [startRun, dynTallocrReset, mem_singleton] at member
      subst b
      decide }
  freeAligned := by
    intro b member
    rw [startRun, dynTallocrReset, mem_singleton] at member
    subst b
    exact Nat.dvd_zero _
  handedAligned r member := by cases member
  liveHanded r member := by cases member
  sizes r member := by cases member
  maxSize := rfl

variable {alignment : Nat} {run : TallocRun} {size : Nat}

theorem TallocInv.contract (inv : TallocInv alignment run) : TallocContract run where
  liveDisjoint := by
    rw [inv.sameAlignment]
    exact inv.tiles.live_pairwise
  freeDisjoint b inFree r inLive := by
    rw [inv.sameAlignment]
    exact inv.tiles.disjoint_of_mem inFree (mem_map_of_mem inLive)
  coalesced := inv.coalesced
  covered x := by
    have covered := inv.tiles.covered_iff x
    simp only [mem_map, exists_exists_and_eq_and] at covered
    rw [inv.sameAlignment]
    exact covered
  aligned := by
    rw [inv.sameAlignment]
    exact inv.handedAligned
  maxSize := by
    rw [inv.sameAlignment]
    exact inv.maxSize
  restored empty := by
    have tiles := inv.tiles
    rw [empty] at tiles
    exact inv.coalesced.eq_whole (by decide) tiles

theorem erase_map_perm {α β : Type} [DecidableEq α] [DecidableEq β] {a : α} {xs : List α}
    (f : α → β) (member : a ∈ xs) : ((xs.map f).erase (f a)).Perm ((xs.erase a).map f) := by
  have mapped := (perm_cons_erase member).map f
  have erased := perm_cons_erase (mem_map_of_mem member : f a ∈ xs.map f)
  exact List.Perm.cons_inv (erased.symm.trans mapped)

theorem FreeOutcome.offset_mem {offset : Nat} {blocks after : List Block}
    (outcome : FreeOutcome offset size blocks after) (b : Block) (member : b ∈ after) :
    b.offset = offset ∨ ∃ c ∈ blocks, b.offset = c.offset := by
  cases outcome with
  | joinBoth pre block next rest _ _ _ =>
    simp only [mem_append, mem_cons] at member
    rcases member with before | here | later
    · exact Or.inr ⟨b, by simp [before], rfl⟩
    · exact Or.inr ⟨block, by simp, by rw [here]⟩
    · exact Or.inr ⟨b, by simp [later], rfl⟩
  | joinEnd pre block post _ _ _ =>
    simp only [mem_append, mem_cons] at member
    rcases member with before | here | later
    · exact Or.inr ⟨b, by simp [before], rfl⟩
    · exact Or.inr ⟨block, by simp, by rw [here]⟩
    · exact Or.inr ⟨b, by simp [later], rfl⟩
  | joinStart pre block post _ _ =>
    simp only [mem_append, mem_cons] at member
    rcases member with before | here | later
    · exact Or.inr ⟨b, by simp [before], rfl⟩
    · exact Or.inl (by rw [here])
    · exact Or.inr ⟨b, by simp [later], rfl⟩
  | insert pre post _ _ _ =>
    simp only [mem_append, mem_cons] at member
    rcases member with before | here | later
    · exact Or.inr ⟨b, by simp [before], rfl⟩
    · exact Or.inl (by rw [here])
    · exact Or.inr ⟨b, by simp [later], rfl⟩

theorem TallocInv.alloc {next : TallocRun} (positive : 0 < alignment)
    (inv : TallocInv alignment run) (reasonable : Reasonable run (.alloc size))
    (stepped : tallocStep run (.alloc size) = some next) : TallocInv alignment next := by
  simp only [tallocStep] at stepped
  split at stepped
  · rename_i offset alloc success
    cases stepped
    simp only [Reasonable, inv.sameAlignment] at reasonable
    obtain ⟨pre, block, post, split_, fits, place, result⟩ := dynTallocrAlloc_cases success
    have tiles := dynTallocrAlloc_tiles inv.tiles success
    rw [inv.sameAlignment] at tiles fits result
    have member : block ∈ run.alloc.freeBlocks := by
      rw [split_]
      simp
    have bounded := inv.tiles.freeBounded block member
    have small := capacity_lt
    simp only [Block.stop] at bounded
    have noWrap : sizeAdd block.offset (alignedOffset size alignment) =
        block.offset + alignedOffset size alignment := sizeAdd_eq (by omega)
    have start := inv.freeAligned block member
    refine {
      sameAlignment := by rw [result]
      tiles := tiles
      coalesced := dynTallocrAlloc_coalesced inv.tiles inv.coalesced success
      freeAligned := ?_
      handedAligned := ?_
      liveHanded := ?_
      sizes := ?_
      maxSize := ?_ }
    · intro b inFree
      rw [result] at inFree
      split at inFree
      · exact inv.freeAligned b (by rw [split_]; simp only [mem_append] at inFree ⊢; tauto)
      · rw [noWrap] at inFree
        simp only [mem_append, mem_cons] at inFree
        rcases inFree with before | here | after
        · exact inv.freeAligned b (by rw [split_]; exact mem_append_left _ before)
        · rw [here]
          exact Nat.dvd_add start (dvd_alignedOffset positive reasonable.2)
        · exact inv.freeAligned b (by rw [split_]; simp [after])
    · intro r member
      rcases mem_cons.mp member with here | earlier
      · rw [here, place]
        exact start
      · exact inv.handedAligned r earlier
    · intro r member
      rcases mem_cons.mp member with here | earlier
      · rw [here]
        exact mem_cons_self ..
      · exact mem_cons_of_mem _ (inv.liveHanded r earlier)
    · intro r member
      rcases mem_cons.mp member with here | earlier
      · rw [here]
        exact reasonable
      · exact inv.sizes r earlier
    · rw [result]
      simp only [map_cons, foldr_cons, ← inv.maxSize, noWrap, place]
      exact Nat.max_comm ..
  · cases stepped

theorem TallocInv.free {offset : Nat} {next : TallocRun} (positive : 0 < alignment)
    (inv : TallocInv alignment run) (stepped : tallocStep run (.free offset size) = some next) :
    TallocInv alignment next := by
  simp only [tallocStep] at stepped
  split at stepped
  · rename_i member
    split at stepped
    · rename_i alloc success
      cases stepped
      obtain ⟨outcome, sameAlignment, sameMax⟩ := dynTallocrFreeTensor_outcome success
      have handed := inv.liveHanded _ member
      have sized := inv.sizes _ handed
      have inLive : padded run.alloc.alignment ⟨offset, size⟩ ∈
          run.live.map (padded alignment) := by
        rw [inv.sameAlignment]
        exact mem_map_of_mem member
      have grown : 0 < alignedOffset size run.alloc.alignment := by
        rw [inv.sameAlignment]
        exact lt_of_lt_of_le sized.1 (le_alignedOffset positive sized.2)
      have tiles := dynTallocrFreeTensor_tiles inv.tiles inLive success
      rw [inv.sameAlignment] at tiles
      exact {
        sameAlignment := sameAlignment.trans inv.sameAlignment
        tiles := tiles.permLive (erase_map_perm _ member)
        coalesced := dynTallocrFreeTensor_coalesced inv.tiles inv.coalesced inLive grown success
        freeAligned := by
          intro b inFree
          rcases outcome.offset_mem b inFree with here | ⟨c, inBlocks, same⟩
          · rw [here]
            exact inv.handedAligned _ handed
          · rw [same]
            exact inv.freeAligned c inBlocks
        handedAligned := inv.handedAligned
        liveHanded := fun r inErased => inv.liveHanded r (mem_of_mem_erase inErased)
        sizes := inv.sizes
        maxSize := sameMax.trans inv.maxSize }
    · cases stepped
  · cases stepped

theorem tallocStep_inv (positive : 0 < alignment) (run : TallocRun) (op : TallocOp)
    (next : TallocRun) (inv : TallocInv alignment run) (reasonable : Reasonable run op)
    (stepped : tallocStep run op = some next) : TallocInv alignment next := by
  cases op with
  | alloc size => exact inv.alloc positive reasonable stepped
  | free offset size => exact inv.free positive stepped

/-- Every state that reasonable requests reach keeps the contract. -/
theorem talloc_reaches_contract (alignment : Nat) (run : TallocRun) (positive : 0 < alignment)
    (reached : Reaches tallocStep Reasonable (startRun alignment) run) : TallocContract run :=
  (reached.invariant (TallocInv alignment) (startRun_inv alignment)
    (tallocStep_inv positive)).contract

def exampleOps : List TallocOp :=
  [.alloc 33, .alloc 100, .alloc 1, .free 64 100, .alloc 20, .free 0 33, .free 192 1, .free 64 20]

theorem exampleOps_run : (runChecked tallocStep Reasonable (startRun 32) exampleOps).isSome := by
  decide

theorem talloc_reaches_contract_example :
    TallocContract ((runChecked tallocStep Reasonable (startRun 32) exampleOps).get
      exampleOps_run) :=
  talloc_reaches_contract 32 _ (by decide)
    (reaches_of_runChecked exampleOps _ _ (Option.some_get _).symm)

def NonemptyRequest (_ : TallocRun) : TallocOp → Prop
  | .alloc size => 1 ≤ size
  | .free _ _ => True

instance (run : TallocRun) (op : TallocOp) : Decidable (NonemptyRequest run op) := by
  cases op with
  | alloc size => exact inferInstanceAs (Decidable (1 ≤ size))
  | free offset size => exact inferInstanceAs (Decidable True)

/-- The request of `SIZE_MAX` bytes is padded to none, and freeing it leaves an empty
free block. -/
def wrappingOps : List TallocOp :=
  [.alloc 32, .alloc 18446744073709551615, .alloc 32, .free 32 18446744073709551615]

theorem wrappingOps_run : (runChecked tallocStep NonemptyRequest (startRun 32) wrappingOps).isSome := by
  decide

def wrappedRun : TallocRun :=
  (runChecked tallocStep NonemptyRequest (startRun 32) wrappingOps).get wrappingOps_run

theorem talloc_contract_broken :
    Reaches tallocStep NonemptyRequest (startRun 32) wrappedRun ∧ ¬ TallocContract wrappedRun := by
  refine ⟨reaches_of_runChecked wrappingOps _ _ (Option.some_get _).symm, fun contract => ?_⟩
  have empty : (⟨32, 0⟩ : Block) ∈ wrappedRun.alloc.freeBlocks := by decide
  exact absurd (contract.coalesced.nonempty _ empty) (by decide)

end LlamaCpp.Alloc
