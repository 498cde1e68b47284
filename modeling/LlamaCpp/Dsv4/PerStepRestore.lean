import LlamaCpp.Dsv4.PerStep

/-!
# A restore leaves the rings of the accepted tokens

The tokens of a batch no longer than the smallest ring have places of their own in every
ring.  The row captured for a token is then the row of that token, and the restored rows are
the rows the plan of the accepted tokens alone persists.
-/

set_option autoImplicit false

namespace LlamaCpp.Dsv4

open LlamaCpp.Lib List

variable {Row : Type*}

/-- `n` tokens of one sequence at consecutive positions. -/
def consecutive (seqId pos : Int) (n : Nat) : Batch :=
  (List.range n).map fun i : Nat => ⟨pos + i, some [seqId]⟩

section Plan

variable {shape : CompShape} {seqId pos : Int}

theorem mem_zipIdx_consecutive {n : Nat} {entry : Token × Nat} :
    entry ∈ (consecutive seqId pos n).zipIdx ↔
      entry.2 < n ∧ entry.1 = ⟨pos + entry.2, some [seqId]⟩ := by
  rw [mem_zipIdx_iff_getElem?, consecutive, List.getElem?_map, Option.map_eq_some_iff]
  constructor
  · intro ⟨i, found, token⟩
    obtain ⟨inside, value⟩ := List.getElem?_eq_some_iff.mp found
    rw [getElem_range] at value
    rw [length_range] at inside
    subst value
    exact ⟨inside, token.symm⟩
  · intro ⟨inside, token⟩
    exact ⟨entry.2, List.getElem?_range inside, token.symm⟩

theorem consecutive_planned (n : Nat) :
    ¬ (shape.nStream ≤ 1 ∧ 1 < (batchUniqueSeqIds (consecutive seqId pos n)).length) := by
  intro ⟨_, many⟩
  refine absurd (batchUniqueSeqIds_le seqId fun token inBatch other inSeqs => ?_)
    (not_le.mpr many)
  obtain ⟨i, -, rfl⟩ := mem_map.mp inBatch
  exact mem_singleton.mp inSeqs

/-- Token `i` is source row `i`, and its place is that of its position. -/
theorem consecutive_deltaIdxs (nonneg : 0 ≤ pos) (n : Nat) :
    (shape.buildCompPlan (consecutive seqId pos n)).deltaIdxs =
      ⟨List.range n, (List.range n).map fun i : Nat => shape.stateIdx seqId (pos + i)⟩ := by
  have entries : (consecutive seqId pos n).zipIdx =
      (List.range n).map fun i : Nat => ((⟨pos + i, some [seqId]⟩ : Token), i) := by
    apply ext_getElem
    · simp [consecutive]
    · intro i inside inside'
      simp [consecutive]
  have kept : ((consecutive seqId pos n).zipIdx.filter fun entry => decide (0 ≤ entry.1.pos)) =
      (consecutive seqId pos n).zipIdx := by
    apply filter_eq_self.mpr
    intro entry member
    have token := (mem_zipIdx_consecutive.mp member).2
    rw [token]
    simp only [decide_eq_true_eq]
    omega
  unfold CompShape.buildCompPlan
  rw [if_neg (consecutive_planned n)]
  simp only [CompPlan.deltaIdxs]
  rw [kept, entries, map_map, map_map]
  congr 1
  exact map_id _

theorem mem_visits_consecutive (nonneg : 0 ≤ pos) {n : Nat} {visit : Visit} :
    visit ∈ visits (consecutive seqId pos n) ↔
      visit.idx < n ∧ visit.pos = pos + visit.idx ∧ visit.seqId = seqId := by
  rw [mem_visits]
  constructor
  · intro ⟨token, inBatch, _, at_, inSeqs⟩
    obtain ⟨inside, token_eq⟩ := mem_zipIdx_consecutive.mp inBatch
    simp only at token_eq
    subst token_eq
    exact ⟨inside, at_.symm, mem_singleton.mp inSeqs⟩
  · intro ⟨inside, at_, seq⟩
    refine ⟨⟨pos + visit.idx, some [seqId]⟩, mem_zipIdx_consecutive.mpr ⟨inside, rfl⟩, ?_,
      at_.symm, ?_⟩
    · simp only
      omega
    · rw [seq]
      exact mem_singleton_self _

section

variable (stream : shape.InStream seqId)
include stream

theorem place_injective {n : Nat} (fits : n ≤ shape.stateSize)
    {i j : Nat} (inside : i < n) (inside' : j < n)
    (same : shape.stateIdx seqId (pos + i) = shape.stateIdx seqId (pos + j)) : i = j := by
  obtain ⟨-, slot⟩ := CompShape.stateIdx_inj stream stream (by omega) same
  have := slot_injective (by omega) (by omega) slot
  omega

theorem mem_stateWrites_consecutive (nonneg : 0 ≤ pos) {n : Nat}
    (fits : n ≤ shape.stateSize) (rows : Nat → Row) {write : Int × Row} :
    write ∈ shape.stateWrites ⟨consecutive seqId pos n, rows⟩ ↔
      ∃ i < n, write = (shape.stateIdx seqId (pos + (i : Nat)), rows i) := by
  have persisted := persistRows_persisted shape (consecutive seqId pos n)
  rw [CompShape.stateWrites_eq (consecutive_planned n), mem_map]
  constructor
  · intro ⟨row, inRows, at_⟩
    rw [mem_insertionSort] at inRows
    obtain ⟨⟨visit, inVisits, place, source, -⟩, -⟩ := persisted.latest row inRows
    obtain ⟨inside, position, seq⟩ := (mem_visits_consecutive nonneg).mp inVisits
    exact ⟨visit.idx, inside, by rw [← at_, ← place, ← source, seq, position]⟩
  · intro ⟨i, inside, at_⟩
    have visited : (⟨i, pos + i, seqId⟩ : Visit) ∈ visits (consecutive seqId pos n) :=
      (mem_visits_consecutive nonneg).mpr ⟨inside, rfl, rfl⟩
    obtain ⟨row, inRows, place⟩ := persisted.kept _ visited
    obtain ⟨⟨other, inVisits, place', source, -⟩, -⟩ := persisted.latest row inRows
    obtain ⟨inside', position, seq⟩ := (mem_visits_consecutive nonneg).mp inVisits
    rw [seq, position, place] at place'
    have same := place_injective stream fits inside' inside place'
    refine ⟨row, (mem_insertionSort _).mpr inRows, ?_⟩
    rw [at_, place, ← source, same]

theorem stateWrites_consecutive_at (nonneg : 0 ≤ pos) {n : Nat}
    (fits : n ≤ shape.stateSize) (ring : Int → Row) (rows : Nat → Row) {i : Nat}
    (inside : i < n) :
    scatter ring (shape.stateWrites ⟨consecutive seqId pos n, rows⟩)
      (shape.stateIdx seqId (pos + i)) = rows i := by
  refine scatter_agreed ⟨_, (mem_stateWrites_consecutive stream nonneg fits rows).mpr
    ⟨i, inside, rfl⟩, rfl⟩ fun write member place => ?_
  obtain ⟨j, inside', rfl⟩ := (mem_stateWrites_consecutive stream nonneg fits rows).mp member
  rw [place_injective stream fits inside' inside place]

theorem scatter_accepted (nonneg : 0 ≤ pos) {n k : Nat}
    (fits : n ≤ shape.stateSize) (accepted : k < n) (ring : Int → Row) (rows : Nat → Row) :
    scatter ring ((((List.range n).zip
        ((List.range n).map fun i : Nat => shape.stateIdx seqId (pos + i))).filter
          fun row => decide (row.1 ≤ k)).map fun row => (row.2, rows row.1)) =
      scatter ring (shape.stateWrites ⟨consecutive seqId pos (k + 1), rows⟩) := by
  apply scatter_congr
  · intro write
    rw [mem_stateWrites_consecutive stream nonneg (by omega) rows, mem_map]
    constructor
    · intro ⟨row, member, at_⟩
      obtain ⟨inZip, below⟩ := mem_filter.mp member
      rw [← map_prod_left_eq_zip] at inZip
      obtain ⟨i, -, rfl⟩ := mem_map.mp inZip
      exact ⟨i, Nat.lt_succ_of_le (of_decide_eq_true below), at_.symm⟩
    · intro ⟨i, below, at_⟩
      refine ⟨(i, shape.stateIdx seqId (pos + (i : Nat))), mem_filter.mpr ⟨?_, ?_⟩, at_.symm⟩
      · rw [← map_prod_left_eq_zip]
        exact mem_map.mpr ⟨i, mem_range.mpr (by omega), rfl⟩
      · exact decide_eq_true (Nat.le_of_lt_succ below)
  · intro write member other member' same
    obtain ⟨i, inside, rfl⟩ := (mem_stateWrites_consecutive stream nonneg (by omega) rows).mp member
    obtain ⟨j, inside', rfl⟩ :=
      (mem_stateWrites_consecutive stream nonneg (by omega) rows).mp member'
    rw [place_injective stream fits (by omega : i < n) (by omega : j < n) same]

end

end Plan

section Tensors

variable {model : CompModel}

variable {tensor : StateTensor}

theorem CompModel.mem_compact {group : StateGroup} : tensor ∈ model.compact group ↔
      tensor.1 = group ∧ model.compressRatios[tensor.2]? = some group.ratio := by
  rw [CompModel.compact, mem_filterMap]
  constructor
  · intro ⟨state, inStates, some_⟩
    obtain ⟨layer, inLayers, at_⟩ := mem_map.mp inStates
    rw [← at_] at some_
    split at some_
    · rename_i ratio
      obtain rfl : (group, layer.2) = tensor := Option.some.inj some_
      exact ⟨rfl, ratio ▸ mem_zipIdx_iff_getElem?.mp inLayers⟩
    · cases some_
  · intro ⟨inGroup, ratio⟩
    refine ⟨some tensor, mem_map.mpr ⟨(group.ratio, tensor.2), ?_, ?_⟩, rfl⟩
    · exact mem_zipIdx_iff_getElem?.mpr ratio
    · rw [if_pos rfl, ← inGroup]

theorem CompModel.compact_nodup (group : StateGroup) : (model.compact group).Nodup := by
  rw [CompModel.compact, CompModel.cacheStates, filterMap_map]
  refine List.Nodup.filterMap ?_ (List.Nodup.of_map Prod.snd ?_)
  · intro layer other tensor found found'
    simp only [Function.comp_apply, Option.mem_def] at found found'
    split at found
    · split at found'
      · rename_i ratio ratio'
        have same := Option.some.inj (found.trans found'.symm)
        exact Prod.ext (ratio.trans ratio'.symm) (Prod.ext_iff.mp same).2
      · cases found'
    · cases found
  · rw [zipIdx_map_snd]
    exact nodup_range'

theorem CompModel.mem_stateTensors :
    tensor ∈ model.stateTensors ↔ tensor ∈ model.compact tensor.1 := by
  rw [CompModel.stateTensors, mem_flatMap]
  constructor
  · intro ⟨group, _, member⟩
    rw [(CompModel.mem_compact.mp member).1]
    exact member
  · intro member
    refine ⟨tensor.1, ?_, member⟩
    cases tensor.1 <;> simp [StateGroup.all]

theorem CompModel.stateTensors_nodup : model.stateTensors.Nodup := by
  rw [CompModel.stateTensors, nodup_flatMap]
  refine ⟨fun group _ => CompModel.compact_nodup group, ?_⟩
  refine List.Pairwise.imp ?_ (show StateGroup.all.Pairwise (· ≠ ·) by decide)
  intro first second apart tensor inFirst inSecond
  exact apart ((CompModel.mem_compact.mp inFirst).1.symm.trans
    (CompModel.mem_compact.mp inSecond).1)

theorem CompModel.stateTensors_split (model : CompModel) (group : StateGroup) :
    ∃ before after, model.stateTensors = before ++ (model.compact group ++ after) ∧
      before.length = PerStepCkpt.groupOffset model group := by
  have whole : model.stateTensors = model.compact .csaKv ++ (model.compact .csaScore ++
      (model.compact .hcaKv ++ (model.compact .hcaScore ++ (model.compact .lidKv ++
      (model.compact .lidScore ++ []))))) := rfl
  rw [whole]
  let lid := model.compact .lidKv ++ (model.compact .lidScore ++ [])
  cases group with
  | csaKv => exact ⟨[], _, rfl, rfl⟩
  | csaScore => exact ⟨_, _, rfl, rfl⟩
  | hcaKv =>
    refine ⟨model.compact .csaKv ++ model.compact .csaScore, model.compact .hcaScore ++ lid, ?_,
      length_append⟩
    simp [lid]
  | hcaScore =>
    refine ⟨model.compact .csaKv ++ model.compact .csaScore ++ model.compact .hcaKv, lid, ?_, ?_⟩
    · simp [lid]
    · simp only [length_append, PerStepCkpt.groupOffset]
  | lidKv =>
    refine ⟨model.compact .csaKv ++ model.compact .csaScore ++ model.compact .hcaKv ++
      model.compact .hcaScore, model.compact .lidScore ++ [], ?_, ?_⟩
    · simp
    · simp only [length_append, PerStepCkpt.groupOffset]
  | lidScore =>
    refine ⟨model.compact .csaKv ++ model.compact .csaScore ++ model.compact .hcaKv ++
      model.compact .hcaScore ++ model.compact .lidKv, [], ?_, ?_⟩
    · simp
    · simp only [length_append, PerStepCkpt.groupOffset]

/-- The place `restore_group` gives a tensor is the one `llama_dsv4_spec_ckpt_delta` finds. -/
theorem CompModel.idxOf_stateTensors {group : StateGroup} {m : Nat}
    (entry : (tensor, m) ∈ (model.compact group).zipIdx (PerStepCkpt.groupOffset model group)) :
    model.stateTensors.idxOf tensor = m ∧ m < model.stateTensors.length := by
  obtain ⟨before, after, whole, offset⟩ := CompModel.stateTensors_split model group
  obtain ⟨low, found⟩ := mem_zipIdx_iff_le_and_getElem?_sub.mp entry
  have at_ : model.stateTensors[m]? = some tensor := by
    obtain ⟨inside, -⟩ := List.getElem?_eq_some_iff.mp found
    rw [whole, List.getElem?_append_right (by omega), offset,
      List.getElem?_append_left inside, found]
  obtain ⟨inside, value⟩ := List.getElem?_eq_some_iff.mp at_
  refine ⟨?_, inside⟩
  rw [← value]
  exact CompModel.stateTensors_nodup.idxOf_getElem m inside

theorem CompModel.compact_ne_nil (model : CompModel) (group : StateGroup) : 0 < (model.compact group).length := by
  have layer : group.ratio ∈ model.compressRatios := by
    cases group
    all_goals first | exact model.hasCsa | exact model.hasHca
  obtain ⟨il, inside, at_⟩ := mem_iff_getElem.mp layer
  refine length_pos_of_mem (a := (group, il)) (CompModel.mem_compact.mpr ⟨rfl, ?_⟩)
  rw [List.getElem?_eq_getElem inside, at_]

theorem CompModel.stateSize_ge (model : CompModel) (group : StateGroup) :
    perStepMaxStateRows ≤ (model.shape group).stateSize ∧ 0 < (model.shape group).stateSize := by
  cases group with
  | csaKv | csaScore | lidKv | lidScore => exact ⟨(by decide : 8 ≤ 8), (by decide : 0 < 8)⟩
  | hcaKv | hcaScore => exact ⟨(by decide : 8 ≤ 128), (by decide : 0 < 128)⟩

/-- `restore_group` takes the lists of the group's own plan: no two offsets coincide. -/
theorem PerStepCkpt.idxsAt_recordPlan (ckpt : PerStepCkpt Row) (batch : Batch)
    (group : StateGroup) :
    idxsAt model (ckpt.recordPlan model batch) (groupOffset model group) =
      ((model.shape group).buildCompPlan batch).deltaIdxs := by
  have csaScore := CompModel.compact_ne_nil model .csaScore
  have hcaScore := CompModel.compact_ne_nil model .hcaScore
  unfold idxsAt
  cases group with
  | csaKv => exact if_pos (.inl rfl)
  | csaScore => exact if_pos (.inr rfl)
  | hcaKv =>
    rw [if_neg (by simp only [groupOffset]; omega)]
    exact if_pos (.inl rfl)
  | hcaScore =>
    rw [if_neg (by simp only [groupOffset]; omega)]
    exact if_pos (.inr rfl)
  | lidKv | lidScore =>
    rw [if_neg (by simp only [groupOffset]; omega), if_neg (by simp only [groupOffset]; omega)]
    rfl

end Tensors

section Verify

variable {model : CompModel} {seqId pos : Int} {n : Nat}

theorem place_inside (stream : 0 ≤ seqId ∧ seqId < model.nStream) (group : StateGroup)
    (pos : Int) :
    0 ≤ (model.shape group).stateIdx seqId pos ∧
      (model.shape group).stateIdx seqId pos < (model.shape group).stateRows := by
  have inStream : (model.shape group).InStream seqId := by
    cases group <;> exact stream
  have sized := (CompModel.stateSize_ge model group).2
  exact ⟨CompShape.stateIdx_nonneg inStream sized pos, CompShape.stateIdx_lt inStream sized pos⟩

theorem CompModel.stateTensors_of_compact {group : StateGroup} {tensor : StateTensor}
    (member : tensor ∈ model.compact group) : tensor ∈ model.stateTensors := by
  rw [CompModel.mem_stateTensors, (CompModel.mem_compact.mp member).1]
  exact member

theorem CompModel.stateTensors_idxOf {tensor : StateTensor}
    (member : tensor ∈ model.stateTensors) :
    model.stateTensors[model.stateTensors.idxOf tensor]? = some tensor := by
  rw [List.getElem?_eq_getElem (idxOf_lt_length_of_mem member), getElem_idxOf]

theorem CompModel.compact_apart : StateGroup.all.Pairwise fun first second =>
    ∀ tensor ∈ model.compact first, tensor ∉ model.compact second := by
  refine List.Pairwise.imp ?_ (show StateGroup.all.Pairwise (· ≠ ·) by decide)
  intro first second different tensor inFirst inSecond
  exact different ((CompModel.mem_compact.mp inFirst).1.symm.trans
    (CompModel.mem_compact.mp inSecond).1)

theorem StateGroup.mem_all (group : StateGroup) : group ∈ StateGroup.all := by
  cases group <;> simp [StateGroup.all]

def deltaKeys (model : CompModel) (group : StateGroup) : List Nat :=
  (model.compact group).map model.stateTensors.idxOf

theorem deltaKeys_nodup (group : StateGroup) : (deltaKeys model group).Nodup := by
  refine List.Nodup.map_on ?_ (CompModel.compact_nodup group)
  intro tensor member other _ same
  exact (idxOf_inj (CompModel.stateTensors_of_compact member)).mp same

theorem deltaKeys_apart : StateGroup.all.Pairwise fun first second =>
    ∀ m ∈ deltaKeys model first, m ∉ deltaKeys model second := by
  have apart : StateGroup.all.Pairwise fun first second =>
      ∀ tensor ∈ model.compact first, tensor ∉ model.compact second := CompModel.compact_apart
  refine apart.imp ?_
  intro first second different m inFirst inSecond
  obtain ⟨tensor, member, rfl⟩ := mem_map.mp inFirst
  obtain ⟨other, member', same⟩ := mem_map.mp inSecond
  have equal := (idxOf_inj (CompModel.stateTensors_of_compact member')).mp same
  exact different tensor member (equal ▸ member')

/-- The delta of a tensor after the capture of `n` tokens. -/
def capturedDelta (model : CompModel) (delta : Nat → Nat → Row) (decoded : StateTensor → Int → Row)
    (seqId pos : Int) (n m : Nat) : Nat → Row :=
  match model.stateTensors[m]? with
  | some tensor => scatter (delta m) ((List.range n).map fun i : Nat =>
    (i, decoded tensor ((model.shape tensor.1).stateIdx seqId (pos + i))))
  | none => delta m

variable {ckpt : PerStepCkpt Row} {rings : StateTensor → Int → Row}

theorem captureGroup_consecutive (stream : 0 ≤ seqId ∧ seqId < model.nStream) (nonneg : 0 ≤ pos)
    (fits : n ≤ ckpt.maxTokens) (decoded : StateTensor → Int → Row) (group : StateGroup)
    (current : Nat → Nat → Row) (same : ∀ m ∈ deltaKeys model group, current m = ckpt.delta m) :
    ∃ next, PerStepCkpt.captureGroup model ckpt decoded (consecutive seqId pos n) group
        current = some next ∧
      (∀ m ∈ deltaKeys model group,
        next m = capturedDelta model ckpt.delta decoded seqId pos n m) ∧
      ∀ m, m ∉ deltaKeys model group → next m = current m := by
  have entryKeys : ((model.compact group).map fun tensor =>
      (model.stateTensors.idxOf tensor, tensor)).map Prod.fst = deltaKeys model group := by
    rw [map_map]
    rfl
  obtain ⟨next, ran, inside, outside⟩ := updateEach_eq_some
    (PerStepCkpt.captureTensor model ckpt decoded
      ((model.shape group).buildCompPlan (consecutive seqId pos n)).deltaIdxs)
    (capturedDelta model ckpt.delta decoded seqId pos n)
    ((model.compact group).map fun tensor => (model.stateTensors.idxOf tensor, tensor))
    (by rw [entryKeys]; exact deltaKeys_nodup group) current
    (by
      intro entry member
      obtain ⟨tensor, inGroup, rfl⟩ := mem_map.mp member
      have inAll := CompModel.stateTensors_of_compact inGroup
      have ofGroup := (CompModel.mem_compact.mp inGroup).1
      simp only [consecutive_deltaIdxs nonneg, same _ (mem_map_of_mem inGroup),
        capturedDelta, CompModel.stateTensors_idxOf inAll, ofGroup]
      unfold PerStepCkpt.captureTensor
      rw [← map_prod_left_eq_zip, if_pos]
      · rw [map_map]
        rfl
      · refine ⟨idxOf_lt_length_of_mem inAll, fun row inRows => ?_⟩
        obtain ⟨i, inRange, rfl⟩ := mem_map.mp inRows
        have place := place_inside stream group (pos + i)
        refine ⟨by have := mem_range.mp inRange; omega, place.1, ?_⟩
        rw [CompModel.stateRows, ofGroup]
        exact place.2)
  rw [entryKeys] at inside outside
  refine ⟨next, ?_, inside, outside⟩
  unfold PerStepCkpt.captureGroup
  rw [if_neg]
  · exact ran
  · rw [consecutive_deltaIdxs nonneg]
    simp only [length_map, length_range]
    omega

theorem captureRows_consecutive (stream : 0 ≤ seqId ∧ seqId < model.nStream) (nonneg : 0 ≤ pos)
    (saved : ckpt.saved = true) (fits : n ≤ ckpt.maxTokens) (rings : StateTensor → Int → Row)
    (rows : StateTensor → Nat → Row) :
    ∃ delta, ckpt.captureRows model (model.decodeRings rings (consecutive seqId pos n) rows)
        (consecutive seqId pos n) = some { ckpt with delta := delta } ∧
      ∀ tensor ∈ model.stateTensors, ∀ i < n,
        delta (model.stateTensors.idxOf tensor) i = rows tensor i := by
  have small : n ≤ perStepMaxStateRows := le_trans fits ckpt.supported.2
  let decoded := model.decodeRings rings (consecutive seqId pos n) rows
  obtain ⟨delta, ran, inside, -⟩ :=
    foldlM_groups_eq_some (capturedDelta model ckpt.delta decoded seqId pos n) StateGroup.all
      deltaKeys_apart ckpt.delta fun group _ current same =>
        captureGroup_consecutive stream nonneg fits decoded group current same
  refine ⟨delta, ?_, fun tensor member i below => ?_⟩
  · unfold PerStepCkpt.captureRows
    rw [if_neg (by rw [saved]; decide), ran]
    rfl
  · have ofGroup : tensor ∈ model.compact tensor.1 := CompModel.mem_stateTensors.mp member
    have inStream : (model.shape tensor.1).InStream seqId := by
      cases tensor.1 <;> exact stream
    have ring := (CompModel.stateSize_ge model tensor.1).1
    have own : decoded tensor ((model.shape tensor.1).stateIdx seqId (pos + i)) =
        rows tensor i := by
      simp only [decoded, CompModel.decodeRings, if_pos member]
      exact stateWrites_consecutive_at inStream nonneg (le_trans small ring) _ _ below
    rw [inside tensor.1 tensor.1.mem_all _ (mem_map_of_mem ofGroup), capturedDelta,
      CompModel.stateTensors_idxOf member]
    refine scatter_agreed ⟨_, mem_map.mpr ⟨i, mem_range.mpr below, rfl⟩, rfl⟩
      fun write inWrites place => ?_
    obtain ⟨j, -, rfl⟩ := mem_map.mp inWrites
    obtain rfl : j = i := place
    exact own

theorem restoreBase_eq {decoded : StateTensor → Int → Row}
    (shadow : ∀ tensor ∈ model.stateTensors, ckpt.stateShadow (model.stateTensors.idxOf tensor) = rings tensor)
    (others : ∀ tensor, tensor ∉ model.stateTensors → decoded tensor = rings tensor) :
    ckpt.restoreBase model decoded = rings := by
  funext tensor
  unfold PerStepCkpt.restoreBase
  by_cases member : tensor ∈ model.stateTensors
  · have at_ : (tensor, model.stateTensors.idxOf tensor) ∈ model.stateTensors.zipIdx :=
      mem_zipIdx_iff_getElem?.mpr (CompModel.stateTensors_idxOf member)
    refine scatter_agreed ⟨_, mem_map_of_mem at_, rfl⟩ fun write inWrites same => ?_
    obtain ⟨entry, inEntries, rfl⟩ := mem_map.mp inWrites
    obtain ⟨inside, value⟩ :=
      List.getElem?_eq_some_iff.mp (mem_zipIdx_iff_getElem?.mp inEntries)
    have place := CompModel.stateTensors_nodup.idxOf_getElem entry.2 inside
    rw [value, same] at place
    rw [← place]
    exact shadow tensor member
  · rw [scatter_untouched fun write inWrites same => ?_]
    · exact others tensor member
    · obtain ⟨entry, inEntries, rfl⟩ := mem_map.mp inWrites
      exact member (same ▸ fst_mem_of_mem_zipIdx inEntries)

/-- The rings after a restore at step `k`: what the plan of the accepted tokens persists. -/
def acceptedRing (model : CompModel) (rings : StateTensor → Int → Row)
    (rows : StateTensor → Nat → Row) (seqId pos : Int) (k : Nat) (tensor : StateTensor) :
    Int → Row :=
  scatter (rings tensor) ((model.shape tensor.1).stateWrites
    ⟨consecutive seqId pos (k + 1), rows tensor⟩)

theorem restoreGroup_consecutive (stream : 0 ≤ seqId ∧ seqId < model.nStream) (nonneg : 0 ≤ pos)
    (fits : n ≤ ckpt.maxTokens) {rows : StateTensor → Nat → Row}
    (recorded : ckpt = ckpt.recordPlan model (consecutive seqId pos n))
    (captured : ∀ tensor ∈ model.stateTensors, ∀ i < n, ckpt.delta (model.stateTensors.idxOf tensor) i = rows tensor i)
    {k : Nat} (accepted : k < n) (group : StateGroup) (current : StateTensor → Int → Row)
    (same : ∀ tensor ∈ model.compact group, current tensor = rings tensor) :
    ∃ next, PerStepCkpt.restoreGroup model ckpt k group current = some next ∧
      (∀ tensor ∈ model.compact group,
        next tensor = acceptedRing model rings rows seqId pos k tensor) ∧
      ∀ tensor, tensor ∉ model.compact group → next tensor = current tensor := by
  have idxs : PerStepCkpt.idxsAt model ckpt (PerStepCkpt.groupOffset model group) =
      ⟨List.range n,
        (List.range n).map fun i : Nat => (model.shape group).stateIdx seqId (pos + i)⟩ := by
    rw [recorded, PerStepCkpt.idxsAt_recordPlan, consecutive_deltaIdxs nonneg]
  have inStream : (model.shape group).InStream seqId := by
    cases group <;> exact stream
  have ring : n ≤ (model.shape group).stateSize :=
    le_trans (le_trans fits ckpt.supported.2) (CompModel.stateSize_ge model group).1
  have entryKeys : ((model.compact group).zipIdx
      (PerStepCkpt.groupOffset model group)).map Prod.fst = model.compact group :=
    zipIdx_map_fst _ _
  obtain ⟨next, ran, inside, outside⟩ := updateEach_eq_some
    (PerStepCkpt.restoreTensor model ckpt
      (PerStepCkpt.idxsAt model ckpt (PerStepCkpt.groupOffset model group)) k)
    (acceptedRing model rings rows seqId pos k)
    ((model.compact group).zipIdx (PerStepCkpt.groupOffset model group))
    (by rw [entryKeys]; exact CompModel.compact_nodup group) current
    (by
      intro entry member
      have inGroup : entry.1 ∈ model.compact group := fst_mem_of_mem_zipIdx member
      obtain ⟨ofGroup, -⟩ := CompModel.mem_compact.mp inGroup
      obtain ⟨place, -⟩ := CompModel.idxOf_stateTensors member
      have deltas : ∀ i < n, ckpt.delta entry.2 i = rows entry.1 i := by
        intro i below
        rw [← place]
        exact captured entry.1 (CompModel.stateTensors_of_compact inGroup) i below
      unfold PerStepCkpt.restoreTensor
      rw [idxs, if_pos]
      · simp only [acceptedRing, ofGroup, same entry.1 inGroup, Option.some.injEq]
        rw [← scatter_accepted inStream nonneg ring accepted]
        congr 1
        apply map_congr_left
        intro row inRows
        rw [← map_prod_left_eq_zip] at inRows
        obtain ⟨i, inRange, rfl⟩ := mem_map.mp (mem_filter.mp inRows).1
        rw [deltas i (mem_range.mp inRange)]
      · intro row inRows
        rw [← map_prod_left_eq_zip] at inRows
        obtain ⟨i, -, rfl⟩ := mem_map.mp (mem_filter.mp inRows).1
        have bounds := place_inside stream group (pos + i)
        rw [CompModel.stateRows, ofGroup]
        exact bounds)
  rw [entryKeys] at inside outside
  refine ⟨next, ?_, inside, outside⟩
  obtain ⟨before, after, whole, offset⟩ := CompModel.stateTensors_split model group
  unfold PerStepCkpt.restoreGroup
  rw [if_neg]
  · exact ran
  · rw [idxs, whole]
    simp only [length_map, length_range, length_append]
    omega

theorem restore_consecutive (stream : 0 ≤ seqId ∧ seqId < model.nStream) (nonneg : 0 ≤ pos)
    (saved : ckpt.saved = true) (fits : n ≤ ckpt.maxTokens) {decoded : StateTensor → Int → Row}
    {rows : StateTensor → Nat → Row}
    (recorded : ckpt = ckpt.recordPlan model (consecutive seqId pos n))
    (base : ckpt.restoreBase model decoded = rings)
    (captured : ∀ tensor ∈ model.stateTensors, ∀ i < n, ckpt.delta (model.stateTensors.idxOf tensor) i = rows tensor i)
    {k : Nat} (accepted : k < n) : ckpt.restore model decoded k =
      some (model.decodeRings rings (consecutive seqId pos (k + 1)) rows) := by
  obtain ⟨result, ran, inside, outside⟩ :=
    foldlM_groups_eq_some (acceptedRing model rings rows seqId pos k) StateGroup.all
      CompModel.compact_apart rings fun group _ current same =>
        restoreGroup_consecutive stream nonneg fits recorded captured accepted group current same
  have layout : model.stateTensors.length = PerStepCkpt.groupOffset model .lidScore +
      (model.compact .lidScore).length := by
    simp only [CompModel.stateTensors, StateGroup.all, flatMap_cons, flatMap_nil,
      length_append, length_nil, PerStepCkpt.groupOffset]
    omega
  unfold PerStepCkpt.restore
  rw [if_neg (by rw [saved]; decide), if_neg (not_not.mpr layout), base, ran, Option.some.injEq]
  funext tensor
  unfold CompModel.decodeRings
  by_cases member : tensor ∈ model.stateTensors
  · rw [if_pos member, inside tensor.1 tensor.1.mem_all tensor
      (CompModel.mem_stateTensors.mp member), acceptedRing]
  · rw [if_neg member, outside tensor fun group _ inGroup => ?_]
    exact member (CompModel.stateTensors_of_compact inGroup)

def twoLayers : CompModel := ⟨[4, 128], 64, 1, by decide, by decide⟩

def fourRows : PerStepCkpt Int := ⟨4, by decide, fun _ _ => 0, fun _ _ => 0, false, {}, {}, {}⟩

end Verify

end LlamaCpp.Dsv4
