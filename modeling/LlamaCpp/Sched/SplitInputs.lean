import Mathlib.Data.Finset.Card
import LlamaCpp.Lib.Ensures
import LlamaCpp.Sched.SplitGraph

/-!
# The input list of a split

A node that stays in the current split adds one input for each distinct source
that is foreign and has no copy yet.  The test that opens a new split looks at
the list only when it is full, so a list that is nearly full overflows when a
node brings more new sources than there are places left.
-/

set_option autoImplicit false

namespace LlamaCpp.Sched

open LlamaCpp.Lib List

variable (sched : BackendSched) (graph : CGraph) (backendIds : TensorId → BackendId)

def isNewInput (st : SplitState) (src : TensorId) : Bool :=
  isForeign sched graph backendIds src st.split.backendId &&
    (st.copies src st.split.backendId 0).isNone

def isNewGraphInput (st : SplitState) (src : TensorId) : Bool :=
  (graph.tensor src).isInput && 1 < sched.nCopies && (st.copies src (backendIds src) 0).isNone

def newInputs (st : SplitState) (srcs : List (Fin ggmlMaxSrc × TensorId)) : Finset TensorId :=
  (srcs.map Prod.snd).toFinset.filter fun src => isNewInput sched graph backendIds st src

def newGraphInputs (st : SplitState) (srcs : List (Fin ggmlMaxSrc × TensorId)) : Finset TensorId :=
  (srcs.map Prod.snd).toFinset.filter fun src => isNewGraphInput sched graph backendIds st src

/-- The new inputs of the sources find a place in the list, as far as the sources are read:
with several copies in flight the list of graph inputs may be full first. -/
def InputsFit (st : SplitState) (srcs : List (Fin ggmlMaxSrc × TensorId)) : Prop :=
  ∀ k, st.graphInputs.length + (newGraphInputs sched graph backendIds st (srcs.take k)).card ≤
      schedMaxSplitInputs →
    st.split.inputs.length + (newInputs sched graph backendIds st (srcs.take k)).card ≤
      schedMaxSplitInputs

/-- Removing `x` from what counts as new accounts for at most one element. -/
theorem card_filter_cons {α : Type} [DecidableEq α] {new newAfter : α → Bool} {x : α} (xs : List α)
    (after : ∀ y, newAfter y = (new y && y ≠ x)) :
    ((x :: xs).toFinset.filter fun y => new y).card =
      (if new x then 1 else 0) + (xs.toFinset.filter fun y => newAfter y).card := by
  have rest : (xs.toFinset.filter fun y => newAfter y) = (xs.toFinset.filter fun y => new y).erase x := by
    ext y
    simp only [Finset.mem_filter, Finset.mem_erase, after, Bool.and_eq_true, decide_eq_true_eq]
    exact ⟨fun ⟨member, isNew, other⟩ => ⟨other, member, isNew⟩,
      fun ⟨other, member, isNew⟩ => ⟨member, isNew, other⟩⟩
  rw [toFinset_cons, Finset.filter_insert, rest]
  split
  · have counted := Finset.card_erase_add_one
      (Finset.mem_insert_self x (xs.toFinset.filter fun y => new y))
    rw [Finset.erase_insert_eq_erase] at counted
    omega
  · rename_i old
    have absent : x ∉ xs.toFinset.filter fun y => new y := fun member =>
      old (Finset.mem_filter.mp member).2
    rw [Finset.erase_eq_of_notMem absent, Nat.zero_add]

structure SourceRead (st next : SplitState) (src : TensorId) : Prop where
  backend : next.split.backendId = st.split.backendId
  inputs : next.split.inputs.length =
    st.split.inputs.length + if isNewInput sched graph backendIds st src then 1 else 0
  graphInputs : next.graphInputs.length =
    st.graphInputs.length + if isNewGraphInput sched graph backendIds st src then 1 else 0
  newInput : ∀ y, isNewInput sched graph backendIds next y =
    (isNewInput sched graph backendIds st y && y ≠ src)
  newGraphInput : ∀ y, isNewGraphInput sched graph backendIds next y =
    (isNewGraphInput sched graph backendIds st y && y ≠ src)
  inputRoom : isNewInput sched graph backendIds st src = true →
    st.split.inputs.length < schedMaxSplitInputs
  graphRoom : isNewGraphInput sched graph backendIds st src = true →
    st.graphInputs.length < schedMaxSplitInputs

variable {sched graph backendIds}

theorem isForeign_self (src : TensorId) :
    isForeign sched graph backendIds src (backendIds src) = false := by
  simp [isForeign]

theorem addGraphInput_cases (st : SplitState) (src : TensorId) :
    (addGraphInput sched graph backendIds st src = .error .tooManyGraphInputs ∧
      isNewGraphInput sched graph backendIds st src = true ∧
      schedMaxSplitInputs ≤ st.graphInputs.length) ∨
    ∃ next, addGraphInput sched graph backendIds st src = .ok next ∧
      next.split = st.split ∧
      (isNewGraphInput sched graph backendIds st src = true →
        st.graphInputs.length < schedMaxSplitInputs) ∧
      next.graphInputs.length =
        st.graphInputs.length + (if isNewGraphInput sched graph backendIds st src then 1 else 0) ∧
      (∀ y, isNewInput sched graph backendIds next y = isNewInput sched graph backendIds st y) ∧
      ∀ y, isNewGraphInput sched graph backendIds next y =
        (isNewGraphInput sched graph backendIds st y && y ≠ src) := by
  have someCopy : 0 < sched.nCopies := Nat.lt_of_le_of_lt (Nat.zero_le _) sched.curCopy_lt
  cases new : isNewGraphInput sched graph backendIds st src with
  | false =>
    right
    have kept : addGraphInput sched graph backendIds st src = .ok st := by
      exact if_neg (show ¬ isNewGraphInput sched graph backendIds st src = true by simp [new])
    refine ⟨st, kept, rfl, by simp, by simp, fun y => rfl, fun y => ?_⟩
    by_cases same : y = src
    · simp [same, new]
    · simp [same]
  | true =>
    by_cases room : st.graphInputs.length < schedMaxSplitInputs
    · right
      have taken : addGraphInput sched graph backendIds st src =
          .ok (listGraphInput sched backendIds st src) := by
        exact (if_pos (show isNewGraphInput sched graph backendIds st src = true from new)).trans (if_pos room)
      refine ⟨_, taken, rfl, fun _ => room, by simp [listGraphInput], fun y => ?_, fun y => ?_⟩
      · by_cases same : y = src ∧ st.split.backendId = backendIds src
        · obtain ⟨rfl, here⟩ := same
          simp [isNewInput, listGraphInput, here, isForeign_self]
        · have elsewhere : ¬ (y = src ∧ st.split.backendId = backendIds src ∧ 0 < sched.nCopies) :=
            fun ⟨this, here, _⟩ => same ⟨this, here⟩
          simp [isNewInput, listGraphInput, elsewhere]
      · by_cases same : y = src
        · simp [isNewGraphInput, listGraphInput, same, someCopy]
        · simp [isNewGraphInput, listGraphInput, same]
    · left
      refine ⟨?_, rfl, Nat.le_of_not_lt room⟩
      exact (if_pos (show isNewGraphInput sched graph backendIds st src = true from new)).trans (if_neg room)

theorem copySource_cases (st : SplitState) {node : TensorId} (j : Fin ggmlMaxSrc) (src : TensorId)
    (noReduce : (graph.tensor node).op ≠ .reduce) (noFakeCpy : (graph.tensor node).op ≠ .fakeCpy) :
    (copySource sched graph backendIds st node j src = .error .tooManyInputs ∧
      isNewInput sched graph backendIds st src = true ∧
      schedMaxSplitInputs ≤ st.split.inputs.length) ∨
    ∃ next, copySource sched graph backendIds st node j src = .ok next ∧
      next.split.backendId = st.split.backendId ∧
      (isNewInput sched graph backendIds st src = true →
        st.split.inputs.length < schedMaxSplitInputs) ∧
      next.split.inputs.length =
        st.split.inputs.length + (if isNewInput sched graph backendIds st src then 1 else 0) ∧
      next.graphInputs = st.graphInputs ∧
      (∀ y, isNewInput sched graph backendIds next y =
        (isNewInput sched graph backendIds st y && y ≠ src)) ∧
      ∀ y, isNewGraphInput sched graph backendIds next y =
        isNewGraphInput sched graph backendIds st y := by
  have someCopy : 0 < sched.nCopies := Nat.lt_of_le_of_lt (Nat.zero_le _) sched.curCopy_lt
  unfold copySource
  cases foreign : isForeign sched graph backendIds src st.split.backendId with
  | false =>
    right
    have old : isNewInput sched graph backendIds st src = false := by simp [isNewInput, foreign]
    refine ⟨st, rfl, rfl, by simp [old], by simp [old], rfl, fun y => ?_, fun y => rfl⟩
    by_cases same : y = src
    · simp [same, old]
    · simp [same]
  | true =>
    have elsewhere : st.split.backendId ≠ backendIds src := fun here => by
      rw [here, isForeign_self] at foreign
      exact Bool.false_ne_true foreign
    cases copied : (st.copies src st.split.backendId 0).isNone with
    | false =>
      right
      have old : isNewInput sched graph backendIds st src = false := by
        simp [isNewInput, copied]
      refine ⟨redirect sched st node j src, rfl, rfl, by simp [old], by simp [old, redirect], rfl,
        fun y => ?_, fun y => rfl⟩
      by_cases same : y = src
      · simp only [same, old]
        exact old
      · simp only [same, ne_eq, not_false_eq_true, decide_true, Bool.and_true]
        rfl
    | true =>
      have new : isNewInput sched graph backendIds st src = true := by
        simp [isNewInput, foreign, copied]
      by_cases room : st.split.inputs.length < schedMaxSplitInputs
      · right
        have made : makeCopy sched graph st node j src = .ok (listInput sched st src) := by
          unfold makeCopy
          rw [if_neg noReduce, if_neg fun both => noFakeCpy both.1, if_pos room]
        simp only [made]
        refine ⟨_, rfl, rfl, fun _ => room, by simp [redirect, listInput, new], rfl, fun y => ?_, fun y => ?_⟩
        · by_cases same : y = src
          · simp [isNewInput, redirect, listInput, same, someCopy]
          · simp [isNewInput, redirect, listInput, same]
        · have other : ¬ (y = src ∧ backendIds y = st.split.backendId ∧ 0 < sched.nCopies) :=
            fun ⟨same, here, _⟩ => elsewhere (same ▸ here.symm)
          simp [isNewGraphInput, redirect, listInput, other]
      · left
        refine ⟨?_, new, Nat.le_of_not_lt room⟩
        have full : makeCopy sched graph st node j src = .error .tooManyInputs := by
          unfold makeCopy
          rw [if_neg noReduce, if_neg fun both => noFakeCpy both.1, if_neg room]
        simp only [full]
        rfl

theorem splitSource_cases (st : SplitState) {node : TensorId} (source : Fin ggmlMaxSrc × TensorId)
    (noReduce : (graph.tensor node).op ≠ .reduce) (noFakeCpy : (graph.tensor node).op ≠ .fakeCpy) :
    (splitSource sched graph backendIds node st source = .error .tooManyGraphInputs ∧
      isNewGraphInput sched graph backendIds st source.2 = true ∧
      schedMaxSplitInputs ≤ st.graphInputs.length) ∨
    (splitSource sched graph backendIds node st source = .error .tooManyInputs ∧
      (isNewGraphInput sched graph backendIds st source.2 = true →
        st.graphInputs.length < schedMaxSplitInputs) ∧
      isNewInput sched graph backendIds st source.2 = true ∧
      schedMaxSplitInputs ≤ st.split.inputs.length) ∨
    ∃ next, splitSource sched graph backendIds node st source = .ok next ∧
      SourceRead sched graph backendIds st next source.2 := by
  obtain ⟨j, src⟩ := source
  unfold splitSource
  obtain ⟨failed, new, full⟩ | ⟨middle, added, split, graphRoom, graphInputs, newInput, newGraphInput⟩ :=
    @addGraphInput_cases sched graph backendIds st src
  · exact .inl ⟨by rw [failed]; rfl, new, full⟩
  · right
    rw [added]
    obtain ⟨failed, new, full⟩ | ⟨next, copied, backend, inputRoom, inputs, sameGraphInputs, news, newGraphs⟩ :=
      @copySource_cases sched graph backendIds middle node j src noReduce noFakeCpy
    · rw [newInput] at new
      rw [split] at full
      exact .inl ⟨failed, graphRoom, new, full⟩
    · right
      rw [newInput, split] at inputRoom inputs
      rw [split] at backend
      refine ⟨next, copied, ⟨backend, inputs, ?_, fun y => ?_, fun y => ?_, inputRoom, graphRoom⟩⟩
      · rw [sameGraphInputs, graphInputs]
      · rw [news, newInput]
      · rw [newGraphs, newGraphInput]

variable {st next : SplitState} {src : TensorId} {j : Fin ggmlMaxSrc}
  {rest : List (Fin ggmlMaxSrc × TensorId)} {node : TensorId}

theorem newInputs_cons (read : SourceRead sched graph backendIds st next src)
    (rest : List (Fin ggmlMaxSrc × TensorId)) :
    st.split.inputs.length + (newInputs sched graph backendIds st ((j, src) :: rest)).card =
      next.split.inputs.length + (newInputs sched graph backendIds next rest).card := by
  have counted := card_filter_cons (rest.map Prod.snd) read.newInput
  have inputs := read.inputs
  unfold newInputs
  rw [map_cons, counted]
  omega

theorem newGraphInputs_cons (read : SourceRead sched graph backendIds st next src)
    (rest : List (Fin ggmlMaxSrc × TensorId)) :
    st.graphInputs.length + (newGraphInputs sched graph backendIds st ((j, src) :: rest)).card =
      next.graphInputs.length + (newGraphInputs sched graph backendIds next rest).card := by
  have counted := card_filter_cons (rest.map Prod.snd) read.newGraphInput
  have graphInputs := read.graphInputs
  unfold newGraphInputs
  rw [map_cons, counted]
  omega

structure WithinBounds (st : SplitState) : Prop where
  inputs : st.split.inputs.length ≤ schedMaxSplitInputs
  graphInputs : st.graphInputs.length ≤ schedMaxSplitInputs

theorem SourceRead.withinBounds (read : SourceRead sched graph backendIds st next src)
    (within : WithinBounds st) : WithinBounds next := by
  have inputs := read.inputs
  have graphInputs := read.graphInputs
  constructor
  · cases new : isNewInput sched graph backendIds st src with
    | false =>
      have bound := within.inputs
      simp only [new, Bool.false_eq_true, if_false] at inputs
      omega
    | true =>
      have room := read.inputRoom new
      simp only [new, if_true] at inputs
      omega
  · cases new : isNewGraphInput sched graph backendIds st src with
    | false =>
      have bound := within.graphInputs
      simp only [new, Bool.false_eq_true, if_false] at graphInputs
      omega
    | true =>
      have room := read.graphRoom new
      simp only [new, if_true] at graphInputs
      omega

theorem inputsFit_cons (read : SourceRead sched graph backendIds st next src)
    (within : WithinBounds st) : InputsFit sched graph backendIds st ((j, src) :: rest) ↔
      InputsFit sched graph backendIds next rest := by
  constructor
  · intro fits k graphFits
    have here := fits (k + 1)
    rw [take_succ_cons, newInputs_cons read, newGraphInputs_cons read] at here
    exact here graphFits
  · intro fits k graphFits
    cases k with
    | zero =>
      have bound := within.inputs
      simpa [newInputs] using bound
    | succ k =>
      rw [take_succ_cons, newGraphInputs_cons read] at graphFits
      rw [take_succ_cons, newInputs_cons read]
      exact fits k graphFits

theorem not_inputsFit_of_full (within : WithinBounds st)
    (graphRoom : isNewGraphInput sched graph backendIds st src = true → st.graphInputs.length < schedMaxSplitInputs)
    (new : isNewInput sched graph backendIds st src = true)
    (full : schedMaxSplitInputs ≤ st.split.inputs.length) :
    ¬ InputsFit sched graph backendIds st ((j, src) :: rest) := by
  intro fits
  have bound := within.graphInputs
  have graphFits : st.graphInputs.length +
      (newGraphInputs sched graph backendIds st [(j, src)]).card ≤ schedMaxSplitInputs := by
    cases newGraph : isNewGraphInput sched graph backendIds st src with
    | false => simpa [newGraphInputs, Finset.filter_singleton, newGraph] using bound
    | true =>
      have room := graphRoom newGraph
      simp only [newGraphInputs, map_cons, map_nil, toFinset_cons, toFinset_nil,
        insert_empty_eq, Finset.filter_singleton, newGraph, if_true, Finset.card_singleton]
      omega
  have counted : (newInputs sched graph backendIds st [(j, src)]).card = 1 := by
    simp [newInputs, Finset.filter_singleton, new]
  have tooLong := fits 1 graphFits
  rw [take_succ_cons, take_zero] at tooLong
  omega

theorem inputsFit_of_graph_full (within : WithinBounds st)
    (new : isNewGraphInput sched graph backendIds st src = true)
    (full : schedMaxSplitInputs ≤ st.graphInputs.length) :
    InputsFit sched graph backendIds st ((j, src) :: rest) := by
  intro k graphFits
  cases k with
  | zero =>
    have bound := within.inputs
    simpa [newInputs] using bound
  | succ k =>
    have member : src ∈ newGraphInputs sched graph backendIds st ((j, src) :: rest.take k) := by
      simp [newGraphInputs, new]
    have positive := Finset.card_pos.mpr ⟨src, member⟩
    rw [take_succ_cons] at graphFits
    omega

theorem foldlM_splitSource_overflow (srcs : List (Fin ggmlMaxSrc × TensorId))
    (within : WithinBounds st) (noReduce : (graph.tensor node).op ≠ .reduce)
    (noFakeCpy : (graph.tensor node).op ≠ .fakeCpy) :
    srcs.foldlM (splitSource sched graph backendIds node) st = .error .tooManyInputs ↔
      ¬ InputsFit sched graph backendIds st srcs := by
  induction srcs generalizing st with
  | nil =>
    have fits : InputsFit sched graph backendIds st [] := fun k _ => by
      have bound := within.inputs
      simpa [newInputs] using bound
    exact ⟨(nomatch ·), fun notFit => absurd fits notFit⟩
  | cons source rest ih =>
    obtain ⟨j, src⟩ := source
    rw [foldlM_cons]
    obtain ⟨failed, new, full⟩ | ⟨failed, graphRoom, new, full⟩ | ⟨next, stepped, read⟩ :=
      @splitSource_cases sched graph backendIds st node (j, src) noReduce noFakeCpy
    · have fits : InputsFit sched graph backendIds st ((j, src) :: rest) :=
        inputsFit_of_graph_full within new full
      rw [failed]
      exact ⟨(nomatch ·), fun notFit => absurd fits notFit⟩
    · rw [failed]
      exact ⟨fun _ => not_inputsFit_of_full within graphRoom new full, fun _ => rfl⟩
    · rw [stepped, ok_bind, ih (read.withinBounds within), inputsFit_cons read within]

theorem addGraphInput_within (st : SplitState) (src : TensorId) (within : WithinBounds st) :
    addGraphInput sched graph backendIds st src ≠ .error .tooManyInputs ∧
      Ensures (addGraphInput sched graph backendIds st src) fun next =>
        WithinBounds next ∧ next.split = st.split := by
  obtain ⟨failed, -, -⟩ | ⟨next, added, split, graphRoom, graphInputs, -, -⟩ :=
    @addGraphInput_cases sched graph backendIds st src
  · rw [failed]
    exact ⟨nofun, ensures_error⟩
  · rw [added]
    refine ⟨nofun, ensures_ok ⟨⟨by rw [split]; exact within.inputs, ?_⟩, split⟩⟩
    have bound := within.graphInputs
    rw [graphInputs]
    split
    · rename_i new
      exact graphRoom new
    · exact bound

theorem makeCopy_within (st : SplitState) (node : TensorId) (j : Fin ggmlMaxSrc) (src : TensorId)
    (within : WithinBounds st) :
    (makeCopy sched graph st node j src = .error .tooManyInputs →
        schedMaxSplitInputs ≤ st.split.inputs.length) ∧
      Ensures (makeCopy sched graph st node j src) fun next =>
        WithinBounds next ∧ next.split.inputs.length ≤ st.split.inputs.length + 1 := by
  unfold makeCopy
  by_cases reduce : (graph.tensor node).op = .reduce
  · rw [if_pos reduce]
    exact ⟨nofun, ensures_ok ⟨⟨within.inputs, within.graphInputs⟩, Nat.le_succ _⟩⟩
  rw [if_neg reduce]
  by_cases fake : (graph.tensor node).op = .fakeCpy ∧ (graph.tensor src).op = .reduce
  · rw [if_pos fake]
    exact ⟨nofun, ensures_ok ⟨⟨within.inputs, within.graphInputs⟩, Nat.le_succ _⟩⟩
  rw [if_neg fake]
  by_cases room : st.split.inputs.length < schedMaxSplitInputs
  · rw [if_pos room]
    have listed : (listInput sched st src).split.inputs.length = st.split.inputs.length + 1 := by
      simp [listInput]
    refine ⟨nofun, ensures_ok ⟨⟨?_, within.graphInputs⟩, ?_⟩⟩
    · rw [listed]
      exact room
    · rw [listed]
  · rw [if_neg room]
    exact ⟨fun _ => Nat.le_of_not_lt room, ensures_error⟩

theorem splitSource_within (st : SplitState) (node : TensorId) (source : Fin ggmlMaxSrc × TensorId)
    (within : WithinBounds st) :
    (splitSource sched graph backendIds node st source = .error .tooManyInputs →
        schedMaxSplitInputs ≤ st.split.inputs.length) ∧
      Ensures (splitSource sched graph backendIds node st source) fun next =>
        WithinBounds next ∧ next.split.inputs.length ≤ st.split.inputs.length + 1 := by
  obtain ⟨j, src⟩ := source
  obtain ⟨noOverflow, added⟩ := @addGraphInput_within sched graph backendIds st src within
  have copied : ∀ middle, WithinBounds middle → middle.split = st.split →
      (copySource sched graph backendIds middle node j src = .error .tooManyInputs →
        schedMaxSplitInputs ≤ st.split.inputs.length) ∧
      Ensures (copySource sched graph backendIds middle node j src) fun next =>
        WithinBounds next ∧ next.split.inputs.length ≤ st.split.inputs.length + 1 := by
    intro middle middleWithin same
    rw [← same]
    unfold copySource
    split
    · split
      · obtain ⟨overflow, made⟩ := @makeCopy_within sched graph middle node j src middleWithin
        constructor
        · intro failed
          rw [bind_eq_error] at failed
          obtain failed | ⟨next, -, impossible⟩ := failed
          · exact overflow failed
          · cases impossible
        · exact made.bind fun next ⟨nextWithin, grown⟩ =>
            ensures_ok ⟨⟨nextWithin.inputs, nextWithin.graphInputs⟩, grown⟩
      · exact ⟨nofun, ensures_ok ⟨⟨middleWithin.inputs, middleWithin.graphInputs⟩, Nat.le_succ _⟩⟩
    · exact ⟨nofun, ensures_ok ⟨middleWithin, Nat.le_succ _⟩⟩
  constructor
  · intro failed
    unfold splitSource at failed
    rw [bind_eq_error] at failed
    obtain failed | ⟨middle, returned, failed⟩ := failed
    · exact absurd failed noOverflow
    · obtain ⟨middleWithin, same⟩ := added middle returned
      exact (copied middle middleWithin same).1 failed
  · exact added.bind fun middle ⟨middleWithin, same⟩ => (copied middle middleWithin same).2

theorem foldlM_splitSource_room (srcs : List (Fin ggmlMaxSrc × TensorId))
    (within : WithinBounds st) (room : st.split.inputs.length + srcs.length ≤ schedMaxSplitInputs) :
    srcs.foldlM (splitSource sched graph backendIds node) st ≠ .error .tooManyInputs := by
  induction srcs generalizing st with
  | nil => nofun
  | cons source rest ih =>
    intro overflow
    obtain ⟨full, stepped⟩ := @splitSource_within sched graph backendIds st node source within
    rw [length_cons] at room
    rw [foldlM_cons, bind_eq_error] at overflow
    obtain failed | ⟨next, returned, failed⟩ := overflow
    · have noRoom := full failed
      omega
    · obtain ⟨nextWithin, grown⟩ := stepped next returned
      exact ih nextWithin (by omega) failed

theorem openSplit_within (st : SplitState) (node : TensorId) (i : Nat) (within : WithinBounds st) :
    Ensures (openSplit sched graph backendIds st node i) WithinBounds := by
  refine ensures_ite (fun _ => ?_) fun _ => ensures_ok within
  exact ensures_ite (fun _ => ensures_ok ⟨Nat.zero_le _, within.graphInputs⟩) fun _ => ensures_error

theorem splitNode_within (st : SplitState) (entry : TensorId × Nat) (within : WithinBounds st) :
    Ensures (splitNode sched graph backendIds st entry) WithinBounds := by
  refine ensures_ite (fun _ => ensures_ok within) fun _ => ?_
  have noted : WithinBounds (noteReduce graph st entry.1) := ⟨within.inputs, within.graphInputs⟩
  refine (openSplit_within _ entry.1 entry.2 noted).bind fun opened openedWithin =>
    ensures_foldlM openedWithin fun state source _ stateWithin => ?_
  exact (splitSource_within state entry.1 source stateWithin).2.mono fun next both => both.1

theorem splitNode_overflow_iff {i : Nat} (within : WithinBounds st) :
    splitNode sched graph backendIds st (node, i) = .error .tooManyInputs ↔
      isViewOp (graph.tensor node).op = false ∧ startsNewSplit sched graph backendIds st node = false ∧
        ¬ InputsFit sched graph backendIds st (sources graph node) := by
  have few := sources_length_le graph node
  have noted : WithinBounds (noteReduce graph st node) := ⟨within.inputs, within.graphInputs⟩
  have sameTest : startsNewSplit sched graph backendIds (noteReduce graph st node) node =
      startsNewSplit sched graph backendIds st node := rfl
  unfold splitNode
  cases view : isViewOp (graph.tensor node).op with
  | true => exact ⟨nofun, fun ⟨noView, _⟩ => nomatch noView⟩
  | false =>
    rw [if_neg Bool.false_ne_true]
    unfold openSplit
    rw [sameTest]
    cases starts : startsNewSplit sched graph backendIds st node with
    | true =>
      refine ⟨fun overflow => ?_, fun ⟨_, stays, _⟩ => nomatch stays⟩
      rw [if_pos rfl, bind_eq_error] at overflow
      unfold newSplit at overflow
      split at overflow
      · obtain impossible | ⟨opened, same, overflow⟩ := overflow
        · cases impossible
        -- an empty list has a place for every source
        · cases same
          refine absurd overflow (foldlM_splitSource_room (sources graph node)
            ⟨Nat.zero_le _, within.graphInputs⟩ ?_)
          have : ggmlMaxSrc ≤ schedMaxSplitInputs := by decide
          rw [length_nil]
          omega
      · obtain impossible | ⟨opened, impossible, _⟩ := overflow <;> cases impossible
    | false =>
      have noForce : forcesSplit graph node = false := by
        cases force : forcesSplit graph node with
        | false => rfl
        | true => simp [startsNewSplit, needNewSplit, force] at starts
      have noReduce : (graph.tensor node).op ≠ .reduce := fun same => by
        simp [forcesSplit, same] at noForce
      have noFakeCpy : (graph.tensor node).op ≠ .fakeCpy := fun same => by
        simp [forcesSplit, same] at noForce
      rw [if_neg Bool.false_ne_true, ok_bind,
        foldlM_splitSource_overflow (sources graph node) noted noReduce noFakeCpy]
      exact ⟨fun notFit => ⟨rfl, rfl, notFit⟩, fun both => both.2.2⟩

theorem inputsFit_of_full (full : st.split.inputs.length = schedMaxSplitInputs)
    (stays : startsNewSplit sched graph backendIds st node = false) :
    InputsFit sched graph backendIds st (sources graph node) := by
  have none : ∀ k, newInputs sched graph backendIds st ((sources graph node).take k) = ∅ := by
    intro k
    refine Finset.filter_eq_empty_iff.mpr fun src member new => ?_
    obtain ⟨⟨j, same⟩, taken, rfl⟩ := mem_map.mp (mem_toFinset.mp member)
    have positive : 0 < schedMaxSplitInputs := by decide
    have needed : startsNewSplit sched graph backendIds st node = true := by
      simp only [startsNewSplit, needNewSplit, full, Bool.or_eq_true, Bool.and_eq_true,
        decide_eq_true_eq, any_eq_true, positive, and_true]
      by_cases sameBackend : backendIds node = st.split.backendId
      · exact .inr (.inr ⟨sameBackend, (j, same), mem_of_mem_take taken, .inr (by
          simpa [isNewInput] using new)⟩)
      · exact .inl sameBackend
    rw [stays] at needed
    cases needed
  intro k _
  rw [none k, Finset.card_empty, full, Nat.add_zero]

def NodeFits (sched : BackendSched) (graph : CGraph) (backendIds : TensorId → BackendId)
    (st : SplitState) (node : TensorId) : Prop :=
  isViewOp (graph.tensor node).op = false → startsNewSplit sched graph backendIds st node = false →
    st.split.inputs.length < schedMaxSplitInputs →
      InputsFit sched graph backendIds st (sources graph node)

theorem splitNodes_within (oldBackend : BackendId) (nodes : List TensorId) :
    Ensures (splitNodes sched graph backendIds oldBackend nodes) WithinBounds :=
  ensures_foldlM ⟨Nat.zero_le _, Nat.zero_le _⟩ fun st entry _ within => splitNode_within st entry within

theorem splitNode_overflow_iff_fits {i : Nat} (within : WithinBounds st) :
    splitNode sched graph backendIds st (node, i) = .error .tooManyInputs ↔
      ¬ NodeFits sched graph backendIds st node := by
  rw [splitNode_overflow_iff within]
  constructor
  · intro ⟨noView, stays, notFit⟩ fits
    by_cases unfilled : st.split.inputs.length < schedMaxSplitInputs
    · exact notFit (fits noView stays unfilled)
    · have full := Nat.le_antisymm within.inputs (Nat.le_of_not_lt unfilled)
      exact notFit (inputsFit_of_full full stays)
  · intro notFits
    simp only [NodeFits, Classical.not_imp] at notFits
    obtain ⟨noView, stays, -, notFit⟩ := notFits
    exact ⟨noView, stays, notFit⟩

/-- The pass overflows no input list exactly if every node it reaches in an unfilled split
brings no more new inputs than there are places left. -/
theorem splitGraph_inputs_iff (sched : BackendSched) (graph : CGraph)
    (backendIds : TensorId → BackendId) (oldBackend : BackendId) :
    splitGraph sched graph backendIds oldBackend ≠ .error .tooManyInputs ↔
      ∀ done node rest st, graph.nodes = done ++ node :: rest →
        splitNodes sched graph backendIds oldBackend done = .ok st →
        NodeFits sched graph backendIds st node := by
  have failure : splitGraph sched graph backendIds oldBackend = .error .tooManyInputs ↔
      splitNodes sched graph backendIds oldBackend graph.nodes = .error .tooManyInputs := by
    unfold splitGraph
    rw [bind_eq_error]
    exact ⟨fun failed => failed.elim id fun ⟨_, _, impossible⟩ => (nomatch impossible), .inl⟩
  constructor
  · intro passes done node rest st parts ran
    by_contra notFits
    have within := splitNodes_within oldBackend done st ran
    refine passes (failure.mpr (foldlM_eq_error.mpr
      ⟨done.zipIdx, (node, done.length), rest.zipIdx (done.length + 1), st, ?_, ran,
        (splitNode_overflow_iff_fits within).mpr notFits⟩))
    rw [parts, zipIdx_append, Nat.zero_add, zipIdx_cons]
  · intro fits failed
    obtain ⟨doneIdx, ⟨node, i⟩, restIdx, st, parts, ran, failed⟩ :=
      foldlM_eq_error.mp (failure.mp failed)
    obtain ⟨done, others, nodes, rfl, tail⟩ := zipIdx_eq_append_iff.mp parts
    obtain ⟨head, rest, rfl, same, -⟩ := zipIdx_eq_cons_iff.mp tail.symm
    obtain ⟨rfl, -⟩ := Prod.mk.inj same
    have within := splitNodes_within oldBackend done st ran
    exact (splitNode_overflow_iff_fits within).mp failed (fits done node rest st nodes ran)

/-- Twenty-two attention nodes on backend 0, each with three sources of its own on backend 1. -/
def attentionGraph : CGraph where
  tensor t :=
    if t < 22 then
      { plainTensor with
        op := .other 0
        srcs := fun j => if j.val < 3 then some (100 + 3 * t + j.val) else none }
    else plainTensor
  nodes := List.range 22
  nodup := nodup_range

def overflows (result : Except SplitError SplitState) : Bool :=
  match result with
  | .error .tooManyInputs => true
  | _ => false

/-- Sixty-three inputs are listed when the last node brings three more. -/
theorem attentionGraph_overflows :
    splitGraph twoBackends attentionGraph (fun t => if t < 22 then 0 else 1) 0 =
      .error .tooManyInputs := by
  have run : overflows (splitGraph twoBackends attentionGraph (fun t => if t < 22 then 0 else 1) 0) =
      true := by decide +kernel
  generalize splitGraph twoBackends attentionGraph (fun t => if t < 22 then 0 else 1) 0 = result at run
  match result, run with
  | .error .tooManyInputs, _ => rfl

end LlamaCpp.Sched
