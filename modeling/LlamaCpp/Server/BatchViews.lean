import Mathlib.Data.List.Basic

/-!
# The views of a batch

`processBatchTokens` models the loop of `server_context::process_batch_tokens` over the views
of a batch.  After every decoded view the slots with a draft accept it, by the rows that its
tokens have in the whole batch; the rows are right exactly when the first decoded view
holds them all.
-/

set_option autoImplicit false

namespace LlamaCpp.Server

/-- The fields of `server_slot` that the loop reads: `state == SLOT_STATE_PROCESSING`,
`embedding`, `i_batch` and `i_batch_dft`. -/
structure ServerSlot where
  processing : Bool
  embedding : Bool := false
  iBatch : Int := -1
  iBatchDft : List Nat := []
deriving DecidableEq

/-- The test of `speculative_decoding_accept`. -/
def ServerSlot.accepts (slot : ServerSlot) : Bool := slot.processing && !slot.iBatchDft.isEmpty

/-- What `add_sampled_tokens` does for a slot: nothing for an idle one, a draft of at least
`n_min` tokens after the sampled token, or the sampled token alone. -/
inductive SlotTurn
  | idle
  | draft (nDraft : Nat)
  | sampled

/-- `add_sampled_tokens`, from a batch of `nTokens` tokens on. -/
def addSampledTokens : Nat → List SlotTurn → List ServerSlot × Nat
  | nTokens, [] => ([], nTokens)
  | nTokens, .idle :: turns =>
    let rest := addSampledTokens nTokens turns
    ({ processing := false } :: rest.1, rest.2)
  | nTokens, .draft nDraft :: turns =>
    let rest := addSampledTokens (nTokens + (nDraft + 1)) turns
    ({ processing := true, iBatchDft := List.range' nTokens (nDraft + 1) } :: rest.1, rest.2)
  | nTokens, .sampled :: turns =>
    let rest := addSampledTokens (nTokens + 1) turns
    ({ processing := true, iBatch := nTokens } :: rest.1, rest.2)

/-- A batch as `update_slots` hands it over. -/
structure ReadyBatch where
  nTokens : Nat
  slots : List ServerSlot
  nonempty : 0 < nTokens
  drafting : ∀ slot ∈ slots, slot.iBatchDft ≠ [] → slot.processing = true ∧ slot.iBatch = -1
  inside : ∀ slot ∈ slots, ∀ row ∈ slot.iBatchDft, row < nTokens

theorem addSampledTokens_le (nTokens : Nat) (turns : List SlotTurn) :
    nTokens ≤ (addSampledTokens nTokens turns).2 := by
  induction turns generalizing nTokens with
  | nil => exact Nat.le_refl nTokens
  | cons turn turns ih =>
    cases turn with
    | idle => exact ih nTokens
    | draft nDraft => exact Nat.le_trans (Nat.le_add_right _ _) (ih (nTokens + (nDraft + 1)))
    | sampled => exact Nat.le_trans (Nat.le_add_right _ _) (ih (nTokens + 1))

theorem addSampledTokens_ready (nTokens : Nat) (turns : List SlotTurn) :
    ∀ slot ∈ (addSampledTokens nTokens turns).1,
      (slot.iBatchDft ≠ [] → slot.processing = true ∧ slot.iBatch = -1) ∧
        ∀ row ∈ slot.iBatchDft, row < (addSampledTokens nTokens turns).2 := by
  induction turns generalizing nTokens with
  | nil => intro slot member; cases member
  | cons turn turns ih =>
    intro slot member
    cases turn with
    | idle =>
      rcases List.mem_cons.mp member with here | later
      · rw [here]
        exact ⟨fun drafts => absurd rfl drafts, fun _ row => by cases row⟩
      · exact ih nTokens slot later
    | draft nDraft =>
      rcases List.mem_cons.mp member with here | later
      · rw [here]
        refine ⟨fun _ => ⟨rfl, rfl⟩, fun row inside => ?_⟩
        have placed := (List.mem_range'_1.mp inside).2
        exact Nat.lt_of_lt_of_le placed (addSampledTokens_le (nTokens + (nDraft + 1)) turns)
      · exact ih _ slot later
    | sampled =>
      rcases List.mem_cons.mp member with here | later
      · rw [here]
        exact ⟨fun drafts => absurd rfl drafts, fun _ row => by cases row⟩
      · exact ih _ slot later

/-- `goesOn s i` says whether slot `s` still processes after its token from the view at `i`. -/
abbrev GoesOn := Nat → Nat → Bool

/-- The loop over the slots after the view of `size` tokens from `first` on. -/
def visitSlot (goesOn : GoesOn) (first size s : Nat) (slot : ServerSlot) : ServerSlot :=
  if slot.processing = false ∨ slot.iBatch < first ∨ first + size ≤ slot.iBatch then slot
  else if slot.embedding then { slot with processing := false, iBatch := -1 }
  else if slot.iBatchDft ≠ [] then slot
  else { slot with processing := goesOn s first, iBatch := -1 }

/-- A decoded view, or the accept step of a slot after it, which reads the rows `rows` of
the context's last decode. -/
inductive ViewEvent
  | decoded (first size : Nat)
  | accepted (slot first size : Nat) (rows : List Nat)
deriving DecidableEq

/-- The accept steps of `speculative_decoding_accept`, of the slots from `s` on. -/
def acceptEvents (first size : Nat) : Nat → List ServerSlot → List ViewEvent
  | _, [] => []
  | s, slot :: slots =>
    if slot.accepts then .accepted s first size slot.iBatchDft :: acceptEvents first size (s + 1) slots
    else acceptEvents first size (s + 1) slots

def acceptSlot (goesOn : GoesOn) (first s : Nat) (slot : ServerSlot) : ServerSlot :=
  if slot.accepts then { slot with processing := goesOn s first, iBatchDft := [] } else slot

/-- `process_batch_tokens`, on the results of `server_decode` one after the other; `first` is
`i`.  A failure other than at `n_batch == 1` halves `n_batch` and looks at the same tokens. -/
def processBatchTokens (goesOn : GoesOn) (nTokens : Nat) :
    List Int → Nat → Nat → List ServerSlot → List ViewEvent
  | [], _, _, _ => []
  | ret :: results, first, nBatch, slots =>
    if nTokens ≤ first then []
    else if ret ≠ 0 then
      if nBatch = 1 ∨ ret < 0 then []
      else processBatchTokens goesOn nTokens results first (nBatch / 2) slots
    else
      let size := min nBatch (nTokens - first)
      let visited := slots.mapIdx (visitSlot goesOn first size)
      .decoded first size :: (acceptEvents first size 0 visited ++
        processBatchTokens goesOn nTokens results (first + nBatch) nBatch
          (visited.mapIdx (acceptSlot goesOn first)))

/-- The token of the batch that row `row` of the last decode belongs to. -/
def tokenOfRow (first size row : Nat) : Option Nat := if row < size then some (first + row) else none

def ViewEvent.OwnRows : ViewEvent → Prop
  | .decoded _ _ => True
  | .accepted _ first size rows => ∀ row ∈ rows, tokenOfRow first size row = some row

theorem tokenOfRow_eq_some {first size row token : Nat} :
    tokenOfRow first size row = some token ↔ row < size ∧ first + row = token := by
  unfold tokenOfRow
  split
  · next inside => simp [inside]
  · next outside => simp [outside]

/-- The view holds the token at `row` of the batch. -/
def ViewEvent.decodes (row : Nat) : ViewEvent → Bool
  | .decoded first size => decide (first ≤ row ∧ row < first + size)
  | .accepted _ _ _ _ => false

def ViewEvent.isAcceptOf (s : Nat) : ViewEvent → Bool
  | .decoded _ _ => false
  | .accepted slot _ _ _ => decide (slot = s)

/-- Every accept step reads the slot's own rows in the view just decoded, no draft is accepted
twice, and one whose tokens are all decoded is accepted. -/
def AcceptsRight (slots : List ServerSlot) (events : List ViewEvent) : Prop :=
  (∀ event ∈ events, event.OwnRows) ∧
    ∀ s slot, slots[s]? = some slot → slot.iBatchDft ≠ [] →
      events.countP (ViewEvent.isAcceptOf s) ≤ 1 ∧
        ((∀ row ∈ slot.iBatchDft, ∃ event ∈ events, event.decodes row = true) →
          events.countP (ViewEvent.isAcceptOf s) = 1)

/-- The size of the first view that is decoded: `n_batch` is halved for each failure. -/
def firstView (nTokens : Nat) : List Int → Nat → Option Nat
  | [], _ => none
  | ret :: results, nBatch =>
    if ret ≠ 0 then
      if nBatch = 1 ∨ ret < 0 then none else firstView nTokens results (nBatch / 2)
    else some (min nBatch nTokens)

section Views

variable (goesOn : GoesOn)

theorem processBatchTokens_firstView {nTokens : Nat} (nonempty : 0 < nTokens) (results : List Int)
    (nBatch : Nat) (slots : List ServerSlot) :
    (firstView nTokens results nBatch = none ∧
        processBatchTokens goesOn nTokens results 0 nBatch slots = []) ∨
      ∃ size later nBatch', firstView nTokens results nBatch = some size ∧
        processBatchTokens goesOn nTokens results 0 nBatch slots =
          .decoded 0 size :: (acceptEvents 0 size 0 (slots.mapIdx (visitSlot goesOn 0 size)) ++
            processBatchTokens goesOn nTokens later nBatch' nBatch'
              ((slots.mapIdx (visitSlot goesOn 0 size)).mapIdx (acceptSlot goesOn 0))) := by
  induction results generalizing nBatch with
  | nil => exact Or.inl ⟨rfl, rfl⟩
  | cons ret results ih =>
    have more : ¬ nTokens ≤ 0 := Nat.not_le.mpr nonempty
    by_cases failed : ret ≠ 0
    · by_cases last : nBatch = 1 ∨ ret < 0
      · simp [firstView, processBatchTokens, if_pos failed, if_pos last]
      · have halved := ih (nBatch / 2)
        simpa only [firstView, processBatchTokens, if_neg more, if_pos failed, if_neg last]
          using halved
    · right
      refine ⟨min nBatch nTokens, results, nBatch, ?_, ?_⟩
      · simp [firstView, if_neg failed]
      · simp only [processBatchTokens, if_neg more, if_neg failed, Nat.sub_zero, Nat.zero_add]

def NoDrafts (slots : List ServerSlot) : Prop := ∀ slot ∈ slots, slot.accepts = false

variable {slot : ServerSlot} {slots : List ServerSlot} {first size s : Nat}

theorem ServerSlot.accepts_eq_false :
    slot.accepts = false ↔ slot.processing = false ∨ slot.iBatchDft = [] := by
  rw [ServerSlot.accepts, Bool.and_eq_false_iff, Bool.not_eq_false', List.isEmpty_iff]

theorem acceptSlot_accepts (first s : Nat) (slot : ServerSlot) :
    (acceptSlot goesOn first s slot).accepts = false := by
  unfold acceptSlot
  split
  · exact ServerSlot.accepts_eq_false.mpr (Or.inr rfl)
  · next idle => exact Bool.eq_false_iff.mpr idle

theorem visitSlot_accepts (first size s : Nat) (idle : slot.accepts = false) :
    (visitSlot goesOn first size s slot).accepts = false := by
  unfold visitSlot
  split
  · exact idle
  · split
    · exact ServerSlot.accepts_eq_false.mpr (Or.inl rfl)
    · split
      · exact idle
      · next undrafted =>
          exact ServerSlot.accepts_eq_false.mpr (Or.inr (not_not.mp undrafted))

theorem noDrafts_mapIdx_acceptSlot (first : Nat) (slots : List ServerSlot) :
    NoDrafts (slots.mapIdx (acceptSlot goesOn first)) := by
  intro slot member
  obtain ⟨s, bound, rfl⟩ := List.mem_mapIdx.mp member
  exact acceptSlot_accepts goesOn first s _

theorem NoDrafts.mapIdx_visitSlot (idle : NoDrafts slots) (first size : Nat) :
    NoDrafts (slots.mapIdx (visitSlot goesOn first size)) := by
  intro slot member
  obtain ⟨s, bound, rfl⟩ := List.mem_mapIdx.mp member
  exact visitSlot_accepts goesOn first size s (idle _ (List.getElem_mem bound))

theorem acceptEvents_of_noDrafts (idle : NoDrafts slots) (first size s : Nat) :
    acceptEvents first size s slots = [] := by
  induction slots generalizing s with
  | nil => rfl
  | cons slot slots ih =>
    have here := idle slot List.mem_cons_self
    simp only [acceptEvents, here]
    exact ih (fun other member => idle other (List.mem_cons_of_mem slot member)) (s + 1)

theorem processBatchTokens_of_noDrafts {nTokens : Nat} (results : List Int) {nBatch : Nat}
    (idle : NoDrafts slots) :
    ∀ event ∈ processBatchTokens goesOn nTokens results first nBatch slots,
      ∃ start size, event = .decoded start size := by
  induction results generalizing first nBatch slots with
  | nil => intro event member; cases member
  | cons ret results ih =>
    intro event member
    unfold processBatchTokens at member
    split at member
    · cases member
    · split at member
      · split at member
        · cases member
        · exact ih idle event member
      · have visited := NoDrafts.mapIdx_visitSlot goesOn idle first
          (min nBatch (nTokens - first))
        simp only [acceptEvents_of_noDrafts visited] at member
        rcases List.mem_cons.mp member with here | later
        · exact ⟨first, _, here⟩
        · exact ih (noDrafts_mapIdx_acceptSlot goesOn first _) event later

theorem visitSlot_of_draft (outside : slot.iBatch = -1) (first size s : Nat) :
    visitSlot goesOn first size s slot = slot := by
  have before : slot.iBatch < (first : Int) := by omega
  simp [visitSlot, before]

theorem visitSlot_iBatchDft (first size s : Nat) (slot : ServerSlot) :
    (visitSlot goesOn first size s slot).iBatchDft = slot.iBatchDft := by
  unfold visitSlot
  split
  · rfl
  · split
    · rfl
    · split
      · rfl
      · rfl

theorem mem_acceptEvents {event : ViewEvent} (member : event ∈ acceptEvents first size s slots) :
    ∃ j slot, slot ∈ slots ∧ event = .accepted j first size slot.iBatchDft := by
  induction slots generalizing s with
  | nil => cases member
  | cons slot slots ih =>
    unfold acceptEvents at member
    split at member
    · rcases List.mem_cons.mp member with here | later
      · exact ⟨s, slot, List.mem_cons_self, here⟩
      · obtain ⟨j, other, inside, shown⟩ := ih later
        exact ⟨j, other, List.mem_cons_of_mem slot inside, shown⟩
    · obtain ⟨j, other, inside, shown⟩ := ih member
      exact ⟨j, other, List.mem_cons_of_mem slot inside, shown⟩

theorem accepted_mem_acceptEvents (member : slot ∈ slots) (drafts : slot.accepts = true) :
    ∃ j, ViewEvent.accepted j first size slot.iBatchDft ∈ acceptEvents first size s slots := by
  induction slots generalizing s with
  | nil => cases member
  | cons head slots ih =>
    rcases List.mem_cons.mp member with rfl | inside
    · exact ⟨s, by simp only [acceptEvents, drafts, if_true, List.mem_cons, true_or]⟩
    · obtain ⟨j, step⟩ := ih inside
      refine ⟨j, ?_⟩
      unfold acceptEvents
      split
      · exact List.mem_cons_of_mem _ step
      · exact step

/-- The steps from slot `s` on are of slots from `s` on. -/
theorem countP_acceptEvents_of_lt {j : Nat} (slots : List ServerSlot) (below : j < s) :
    (acceptEvents first size s slots).countP (ViewEvent.isAcceptOf j) = 0 := by
  induction slots generalizing s with
  | nil => rfl
  | cons slot slots ih =>
    have rest := ih (Nat.lt_succ_of_lt below)
    have other : s ≠ j := fun same => absurd below (by omega)
    unfold acceptEvents
    split
    · rw [List.countP_cons_of_neg (by simp [ViewEvent.isAcceptOf, other])]
      exact rest
    · exact rest

theorem countP_acceptEvents (first size s : Nat) {j : Nat} (found : slots[j]? = some slot)
    (drafts : slot.accepts = true) :
    (acceptEvents first size s slots).countP (ViewEvent.isAcceptOf (s + j)) = 1 := by
  induction slots generalizing s j with
  | nil => cases found
  | cons head slots ih =>
    cases j with
    | zero =>
      obtain rfl : head = slot := by simpa using found
      simp only [acceptEvents, drafts, if_true, Nat.add_zero]
      rw [List.countP_cons_of_pos (by simp [ViewEvent.isAcceptOf]),
        countP_acceptEvents_of_lt slots (Nat.lt_succ_self s)]
    | succ j =>
      have rest := ih (s + 1) (by simpa using found)
      rw [show s + (j + 1) = s + 1 + j by omega]
      unfold acceptEvents
      split
      · rw [List.countP_cons_of_neg (by simp [ViewEvent.isAcceptOf]; omega)]
        exact rest
      · exact rest

theorem visited_drafts (batch : ReadyBatch) (size : Nat) (found : batch.slots[s]? = some slot)
    (drafts : slot.iBatchDft ≠ []) :
    (batch.slots.mapIdx (visitSlot goesOn 0 size))[s]? = some slot ∧ slot.accepts = true := by
  obtain ⟨processing, outside⟩ := batch.drafting slot (List.mem_of_getElem? found) drafts
  refine ⟨?_, ?_⟩
  · rw [List.getElem?_mapIdx, found, Option.map_some, visitSlot_of_draft goesOn outside]
  · rw [ServerSlot.accepts, processing, Bool.true_and, Bool.not_eq_true', List.isEmpty_eq_false_iff]
    exact drafts

theorem countP_processBatchTokens (batch : ReadyBatch) (size nBatch : Nat) (later : List Int)
    (found : batch.slots[s]? = some slot) (drafts : slot.iBatchDft ≠ []) :
    (ViewEvent.decoded 0 size ::
      (acceptEvents 0 size 0 (batch.slots.mapIdx (visitSlot goesOn 0 size)) ++
        processBatchTokens goesOn batch.nTokens later nBatch nBatch
          ((batch.slots.mapIdx (visitSlot goesOn 0 size)).mapIdx (acceptSlot goesOn 0)))).countP
        (ViewEvent.isAcceptOf s) = 1 := by
  obtain ⟨visited, accepts⟩ := visited_drafts goesOn batch size found drafts
  have once := countP_acceptEvents 0 size 0 visited accepts
  have never : (processBatchTokens goesOn batch.nTokens later nBatch nBatch
      ((batch.slots.mapIdx (visitSlot goesOn 0 size)).mapIdx (acceptSlot goesOn 0))).countP
        (ViewEvent.isAcceptOf s) = 0 := by
    refine List.countP_eq_zero.mpr fun event member => ?_
    obtain ⟨start, length, rfl⟩ :=
      processBatchTokens_of_noDrafts goesOn later (noDrafts_mapIdx_acceptSlot goesOn 0 _) event member
    exact Bool.false_ne_true
  rw [List.countP_cons_of_neg Bool.false_ne_true, List.countP_append, never]
  simpa using once

end Views

/-- The accept steps of a batch are right exactly when the first decoded view holds the rows
of every draft. -/
theorem processBatchTokens_acceptsRight_iff (batch : ReadyBatch) (goesOn : GoesOn)
    (results : List Int) (nBatch : Nat) :
    AcceptsRight batch.slots
        (processBatchTokens goesOn batch.nTokens results 0 nBatch batch.slots) ↔
      ∀ size, firstView batch.nTokens results nBatch = some size →
        ∀ slot ∈ batch.slots, ∀ row ∈ slot.iBatchDft, row < size := by
  rcases processBatchTokens_firstView goesOn batch.nonempty results nBatch batch.slots
    with ⟨none, nothing⟩ | ⟨size, later, nBatch', first, events⟩
  · rw [nothing]
    refine ⟨fun _ size some => absurd (none.symm.trans some) (by simp), fun _ => ⟨?_, ?_⟩⟩
    · intro event member
      cases member
    · intro s slot _ drafts
      refine ⟨Nat.zero_le 1, fun decoded => ?_⟩
      obtain ⟨row, rest, shown⟩ := List.exists_cons_of_ne_nil drafts
      obtain ⟨event, member, _⟩ := decoded row (shown ▸ List.mem_cons_self)
      cases member
  · rw [events, first]
    constructor
    · intro right size' same slot member row inside
      obtain rfl : size = size' := Option.some.inj same
      obtain ⟨s, bound, place⟩ := List.getElem_of_mem member
      have found : batch.slots[s]? = some slot := by rw [List.getElem?_eq_getElem bound, place]
      have drafts : slot.iBatchDft ≠ [] := List.ne_nil_of_mem inside
      obtain ⟨visited, accepts⟩ := visited_drafts goesOn batch size found drafts
      obtain ⟨j, step⟩ :=
        accepted_mem_acceptEvents (List.mem_of_getElem? visited) accepts
      have own := right.1 _ (List.mem_cons_of_mem _ (List.mem_append_left _ step)) row inside
      exact (tokenOfRow_eq_some.mp own).1
    · intro fits
      refine ⟨?_, fun s slot found drafts => ?_⟩
      · intro event member
        rcases List.mem_cons.mp member with here | member
        · exact here ▸ trivial
        · rcases List.mem_append.mp member with accepted | after
          · obtain ⟨j, slot, inside, rfl⟩ := mem_acceptEvents accepted
            obtain ⟨s, bound, rfl⟩ := List.mem_mapIdx.mp inside
            intro row read
            rw [visitSlot_iBatchDft] at read
            have held := fits size rfl _ (List.getElem_mem bound) row read
            exact tokenOfRow_eq_some.mpr ⟨held, Nat.zero_add row⟩
          · obtain ⟨start, length, rfl⟩ :=
              processBatchTokens_of_noDrafts goesOn later (noDrafts_mapIdx_acceptSlot goesOn 0 _) event after
            trivial
      · have once := countP_processBatchTokens goesOn batch size nBatch' later found drafts
        exact ⟨Nat.le_of_eq once, fun _ => once⟩

/-- Two slots with three drafted tokens each, as `add_sampled_tokens` places them. -/
def twoDrafts : ReadyBatch where
  nTokens := 8
  slots := (addSampledTokens 0 [.draft 3, .draft 3]).1
  nonempty := by omega
  drafting := fun slot member => (addSampledTokens_ready 0 _ slot member).1
  inside := fun slot member => (addSampledTokens_ready 0 _ slot member).2

/-- The first decode fails, the batch is cut in two and both slots accept after the first half:
the second one by rows that belong to no token of the view. -/
theorem processBatchTokens_accepts_before_decoded :
    firstView twoDrafts.nTokens [1, 0, 0] 8 = some 4 ∧
      processBatchTokens (fun _ _ => true) twoDrafts.nTokens [1, 0, 0] 0 8 twoDrafts.slots =
        [.decoded 0 4, .accepted 0 0 4 [0, 1, 2, 3], .accepted 1 0 4 [4, 5, 6, 7],
          .decoded 4 4] ∧
      ¬ AcceptsRight twoDrafts.slots
        (processBatchTokens (fun _ _ => true) twoDrafts.nTokens [1, 0, 0] 0 8
          twoDrafts.slots) := by
  have events : processBatchTokens (fun _ _ => true) twoDrafts.nTokens [1, 0, 0] 0 8
      twoDrafts.slots = [.decoded 0 4, .accepted 0 0 4 [0, 1, 2, 3],
        .accepted 1 0 4 [4, 5, 6, 7], .decoded 4 4] := by rfl
  refine ⟨rfl, events, fun right => ?_⟩
  rw [events] at right
  have own := right.1 (.accepted 1 0 4 [4, 5, 6, 7]) (by simp) 4 (by simp)
  exact absurd (tokenOfRow_eq_some.mp own).1 (Nat.lt_irrefl 4)

end LlamaCpp.Server
