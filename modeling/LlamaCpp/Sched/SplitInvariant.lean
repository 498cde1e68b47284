import LlamaCpp.Lib.Ensures
import LlamaCpp.Sched.SplitGraph

/-!
# What the splits say about the copies

Every source that was redirected to a copy is listed by the split of its node
or by an earlier one, each copy is listed once, and a node that the pass has not
reached still reads the tensors of the graph.
-/

set_option autoImplicit false

namespace LlamaCpp.Sched

open LlamaCpp.Lib List

def Listed (splits : List Split) (t : TensorId) (backend : BackendId) : Prop :=
  ∃ split ∈ splits, split.backendId = backend ∧ t ∈ split.inputs

def listedInputs (splits : List Split) : List (TensorId × BackendId) :=
  splits.flatMap fun split => split.inputs.map (·, split.backendId)

variable {splits : List Split} {t : TensorId} {n : Nat} {st : SplitState} {src : TensorId}
  {b : BackendId} {node : TensorId} {oldBackend : BackendId}

theorem mem_listedInputs {backend : BackendId} :
    (t, backend) ∈ listedInputs splits ↔ Listed splits t backend := by
  simp only [listedInputs, mem_flatMap, mem_map, Prod.mk.injEq]
  constructor
  · rintro ⟨split, member, input, listed, rfl, same⟩
    exact ⟨split, member, same, listed⟩
  · rintro ⟨split, member, same, listed⟩
    exact ⟨split, member, t, listed, rfl, same⟩

/-- The state after the first `n` nodes. -/
structure Traced (sched : BackendSched) (graph : CGraph) (n : Nat) (st : SplitState) : Prop where
  start : st.split.iStart ≤ n
  ends : ∀ split ∈ st.finished, split.iEnd ≤ n
  once : (listedInputs st.splits).Nodup
  listed : ∀ t b, Listed st.splits t b → ∀ c < sched.nCopies, st.copies t b c = some (.copy t b c)
  copies : ∀ t b c t' b', st.copies t b c = some (.copy t' b' sched.curCopy) →
    Listed st.splits t' b'
  reads : ∀ node j t b, st.srcs node j = some (.copy t b sched.curCopy) → Listed st.splits t b
  finishedReads : ∀ before split after, st.finished = before ++ split :: after →
    ∀ i node, split.iStart ≤ i → i < split.iEnd → graph.nodes[i]? = some node →
      ∀ j t b, st.srcs node j = some (.copy t b sched.curCopy) → Listed (before ++ [split]) t b

variable {sched : BackendSched} {graph : CGraph} {backendIds : TensorId → BackendId}

theorem splitStart_traced (oldBackend : BackendId) :
    Traced sched graph 0 (splitStart graph backendIds oldBackend) where
  start := le_refl _
  ends := by simp [splitStart]
  once := by simp [SplitState.splits, splitStart, listedInputs]
  listed := by simp [SplitState.splits, splitStart, Listed]
  copies := by simp [splitStart]
  reads := by simp [splitStart]
  finishedReads := by simp [splitStart]

theorem addGraphInput_traced (src : TensorId) (traced : Traced sched graph n st) :
    Ensures (addGraphInput sched graph backendIds st src) fun next =>
      Traced sched graph n next ∧ next.split = st.split := by
  have someCopy : 0 < sched.nCopies := Nat.lt_of_le_of_lt (Nat.zero_le _) sched.curCopy_lt
  refine ensures_ite (fun new => ?_) fun _ => ensures_ok ⟨traced, rfl⟩
  refine ensures_ite (fun _ => ensures_ok ⟨?_, rfl⟩) fun _ => ensures_error
  have uncopied : st.copies src (backendIds src) 0 = none := by
    simp only [Bool.and_eq_true, Option.isNone_iff_eq_none] at new
    exact new.2
  refine ⟨traced.start, traced.ends, traced.once, fun t b listed c inside => ?_,
    fun t b c t' b' found => ?_, traced.reads, traced.finishedReads⟩
  · have other : ¬ (t = src ∧ b = backendIds src ∧ c < sched.nCopies) := by
      intro ⟨sameTensor, sameBackend, _⟩
      have copied := traced.listed t b listed 0 someCopy
      rw [sameTensor, sameBackend, uncopied] at copied
      cases copied
    rw [← traced.listed t b listed c inside]
    exact if_neg other
  · simp only [listGraphInput] at found
    split at found
    · split at found
      · cases found
      · rename_i other
        cases found
        exact absurd rfl other
    · exact traced.copies t b c t' b' found

theorem setCopy_traced {ref : Option TensorRef} (traced : Traced sched graph n st)
    (uncopied : st.copies src st.split.backendId 0 = none)
    (known : ∀ t b, ref = some (.copy t b sched.curCopy) → Listed st.splits t b) :
    Traced sched graph n (setCopy st src ref) := by
  have someCopy : 0 < sched.nCopies := Nat.lt_of_le_of_lt (Nat.zero_le _) sched.curCopy_lt
  refine ⟨traced.start, traced.ends, traced.once, fun t b listed c inside => ?_,
    fun t b c t' b' found => ?_, traced.reads, traced.finishedReads⟩
  · have other : ¬ (t = src ∧ b = st.split.backendId ∧ c = 0) := by
      intro ⟨sameTensor, sameBackend, _⟩
      have copied := traced.listed t b listed 0 someCopy
      rw [sameTensor, sameBackend, uncopied] at copied
      cases copied
    rw [← traced.listed t b listed c inside]
    exact if_neg other
  · simp only [setCopy] at found
    split at found
    · exact known t' b' found
    · exact traced.copies t b c t' b' found

theorem splits_listInput (st : SplitState) (src : TensorId) :
    listedInputs (listInput sched st src).splits =
      listedInputs st.splits ++ [(src, st.split.backendId)] := by
  simp [SplitState.splits, listedInputs, listInput]

theorem listed_listInput : Listed (listInput sched st src).splits t b ↔
      Listed st.splits t b ∨ (t = src ∧ b = st.split.backendId) := by
  rw [← mem_listedInputs, splits_listInput, mem_append, mem_listedInputs, mem_singleton,
    Prod.mk.injEq]

theorem listInput_traced (traced : Traced sched graph n st)
    (uncopied : st.copies src st.split.backendId 0 = none) :
    Traced sched graph n (listInput sched st src) := by
  have someCopy : 0 < sched.nCopies := Nat.lt_of_le_of_lt (Nat.zero_le _) sched.curCopy_lt
  have unlisted : ¬ Listed st.splits src st.split.backendId := by
    intro listed
    have copied := traced.listed src st.split.backendId listed 0 someCopy
    rw [uncopied] at copied
    cases copied
  refine ⟨traced.start, traced.ends, ?_, fun t b listed c inside => ?_,
    fun t b c t' b' found => ?_, fun node j t b found => ?_, traced.finishedReads⟩
  · rw [splits_listInput, nodup_append]
    refine ⟨traced.once, nodup_singleton _, fun pair old other new => ?_⟩
    rw [mem_singleton.mp new]
    intro same
    rw [same, mem_listedInputs] at old
    exact unlisted old
  · by_cases here : t = src ∧ b = st.split.backendId
    · obtain ⟨rfl, rfl⟩ := here
      exact if_pos ⟨rfl, rfl, inside⟩
    · have old := (listed_listInput.mp listed).resolve_right here
      rw [← traced.listed t b old c inside]
      exact if_neg fun ⟨sameTensor, sameBackend, _⟩ => here ⟨sameTensor, sameBackend⟩
  · rw [listed_listInput]
    simp only [listInput] at found
    split at found
    · rename_i here
      cases found
      exact .inr ⟨rfl, here.2.1⟩
    · exact .inl (traced.copies t b c t' b' found)
  · exact listed_listInput.mpr (.inl (traced.reads node j t b found))

theorem redirect_traced {j : Fin ggmlMaxSrc} (traced : Traced sched graph n st)
    (here : graph.nodes[n]? = some node) : Traced sched graph n (redirect sched st node j src) := by
  refine ⟨traced.start, traced.ends, traced.once, traced.listed, traced.copies,
    fun other k t b found => ?_, fun before split after parts i other first last at' k t b found => ?_⟩
  · simp only [redirect] at found
    split at found
    · exact traced.copies _ _ _ t b found
    · exact traced.reads other k t b found
  · have earlier : i < n := lt_of_lt_of_le last (traced.ends split (by
      rw [show st.finished = before ++ split :: after from parts]
      simp))
    have distinct : other ≠ node := by
      intro same
      obtain ⟨inside, atI⟩ := List.getElem?_eq_some_iff.mp at'
      obtain ⟨insideN, atN⟩ := List.getElem?_eq_some_iff.mp here
      have sameIndex := (List.Nodup.getElem_inj_iff graph.nodup).mp (atI.trans (same.trans atN.symm))
      omega
    simp only [redirect, distinct] at found
    exact traced.finishedReads before split after parts i other first last at' k t b found

theorem copySource_traced (j : Fin ggmlMaxSrc) (src : TensorId) (traced : Traced sched graph n st)
    (here : graph.nodes[n]? = some node) :
    Ensures (copySource sched graph backendIds st node j src) (Traced sched graph n) := by
  refine ensures_ite (fun _ => ?_) fun _ => ensures_ok traced
  have made : Ensures (makeCopy sched graph st node j src) fun next =>
      st.copies src st.split.backendId 0 = none → Traced sched graph n next := by
    refine ensures_ite (fun _ => ensures_ok fun uncopied => ?_) fun _ =>
      ensures_ite (fun _ => ensures_ok fun uncopied => ?_) fun _ =>
        ensures_ite (fun _ => ensures_ok fun uncopied => listInput_traced traced uncopied)
          fun _ => ensures_error
    · exact setCopy_traced traced uncopied fun t b same => nomatch same
    · exact setCopy_traced traced uncopied fun t b same => traced.reads src j t b same
  split
  · rename_i uncopied
    exact made.bind fun next traced' =>
      ensures_ok (redirect_traced (traced' (Option.isNone_iff_eq_none.mp uncopied)) here)
  · exact ensures_ok (redirect_traced traced here)

theorem splitSource_traced (source : Fin ggmlMaxSrc × TensorId) (traced : Traced sched graph n st)
    (here : graph.nodes[n]? = some node) :
    Ensures (splitSource sched graph backendIds node st source) (Traced sched graph n) :=
  (addGraphInput_traced source.2 traced).bind fun _ both =>
    copySource_traced source.1 source.2 both.1 here

theorem openSplit_traced (node : TensorId) (traced : Traced sched graph n st) :
    Ensures (openSplit sched graph backendIds st node n) (Traced sched graph n) := by
  refine ensures_ite (fun _ => ?_) fun _ => ensures_ok traced
  refine ensures_ite (fun _ => ensures_ok ?_) fun _ => ensures_error
  have sameInputs : listedInputs
      (st.finished ++ [{ st.split with iEnd := n }] ++ [(⟨backendIds node, n, 0, []⟩ : Split)]) =
      listedInputs st.splits := by
    simp [listedInputs, SplitState.splits]
  have sameListed : ∀ t b, Listed
      (st.finished ++ [{ st.split with iEnd := n }] ++ [(⟨backendIds node, n, 0, []⟩ : Split)]) t b ↔
      Listed st.splits t b := fun t b => by
    rw [← mem_listedInputs, sameInputs, mem_listedInputs]
  constructor
  · exact le_refl n
  · intro split member
    rcases mem_append.mp member with old | new
    · exact traced.ends split old
    · rw [mem_singleton.mp new]
  · unfold SplitState.splits
    rw [sameInputs]
    exact traced.once
  · exact fun t b listed => traced.listed t b ((sameListed t b).mp listed)
  · exact fun t b c t' b' found => (sameListed t' b').mpr (traced.copies t b c t' b' found)
  · exact fun node' j t b found => (sameListed t b).mpr (traced.reads node' j t b found)
  · intro before split after parts i other first last at' k t b found
    rcases eq_nil_or_concat after with rfl | ⟨init, final, rfl⟩
    · -- the split that was just closed
      obtain ⟨rfl, same⟩ := append_inj' parts rfl
      obtain ⟨rfl, -⟩ := List.cons.inj same
      have known := traced.reads other k t b found
      rw [← mem_listedInputs] at known ⊢
      simpa [listedInputs, SplitState.splits] using known
    · have regrouped : st.finished ++ [{ st.split with iEnd := n }] =
          (before ++ split :: init) ++ [final] := by
        refine Eq.trans parts ?_
        simp
      obtain ⟨old, -⟩ := append_inj' regrouped rfl
      exact traced.finishedReads before split init old i other first last at' k t b found

theorem splitNode_traced (traced : Traced sched graph n st) (here : graph.nodes[n]? = some node) :
    Ensures (splitNode sched graph backendIds st (node, n)) (Traced sched graph (n + 1)) := by
  have next : ∀ state, Traced sched graph n state → Traced sched graph (n + 1) state :=
    fun state traced => ⟨Nat.le_succ_of_le traced.start,
      fun split member => Nat.le_succ_of_le (traced.ends split member), traced.once, traced.listed,
      traced.copies, traced.reads, traced.finishedReads⟩
  refine ensures_ite (fun _ => ensures_ok (next st traced)) fun _ => ?_
  have noted : Traced sched graph n (noteReduce graph st node) :=
    ⟨traced.start, traced.ends, traced.once, traced.listed, traced.copies, traced.reads,
      traced.finishedReads⟩
  refine (openSplit_traced node noted).bind fun opened openedTraced => ?_
  exact (ensures_foldlM openedTraced fun state source _ stateTraced =>
    splitSource_traced source stateTraced here).mono next

theorem splitNodes_traced (oldBackend : BackendId) :
    Ensures (splitNodes sched graph backendIds oldBackend graph.nodes)
      (Traced sched graph graph.nodes.length) := by
  have traced : Ensures (splitNodes sched graph backendIds oldBackend graph.nodes)
      (Traced sched graph (0 + graph.nodes.length)) :=
    ensures_foldlM_zipIdx (splitStart_traced oldBackend) fun i node state here traced =>
      splitNode_traced traced (by rw [Nat.zero_add]; exact here)
  rwa [Nat.zero_add] at traced

theorem splitGraph_eq_ok (made : splitGraph sched graph backendIds oldBackend = .ok st) :
    ∃ last, splitNodes sched graph backendIds oldBackend graph.nodes = .ok last ∧
      Traced sched graph graph.nodes.length last ∧
      st = { last with split := { last.split with iEnd := graph.nodes.length } } := by
  obtain ⟨last, ran, same⟩ := bind_eq_ok.mp made
  cases same
  exact ⟨last, ran, splitNodes_traced oldBackend last ran, rfl⟩

theorem listedInputs_close (finished : List Split) (split : Split) (n : Nat) :
    listedInputs (finished ++ [{ split with iEnd := n }]) = listedInputs (finished ++ [split]) := by
  simp [listedInputs]

section

variable (made : splitGraph sched graph backendIds oldBackend = .ok st)
include made

theorem splitGraph_once :
    (listedInputs st.splits).Nodup := by
  obtain ⟨last, -, traced, rfl⟩ := splitGraph_eq_ok made
  unfold SplitState.splits
  rw [listedInputs_close]
  exact traced.once

theorem splitGraph_copies
    (listed : Listed st.splits t b) :
    st.copies t b sched.curCopy = some (.copy t b sched.curCopy) := by
  obtain ⟨last, -, traced, rfl⟩ := splitGraph_eq_ok made
  refine traced.listed t b ?_ sched.curCopy sched.curCopy_lt
  rw [← mem_listedInputs] at listed ⊢
  unfold SplitState.splits at listed
  rwa [listedInputs_close] at listed

theorem splitGraph_reads
    {s i : Nat} {split : Split} {j : Fin ggmlMaxSrc} (place : st.splits[s]? = some split)
    (first : split.iStart ≤ i) (inside : i < split.iEnd) (here : graph.nodes[i]? = some node)
    (found : st.srcs node j = some (.copy t b sched.curCopy)) :
    Listed (st.splits.take (s + 1)) t b := by
  obtain ⟨last, -, traced, rfl⟩ := splitGraph_eq_ok made
  unfold SplitState.splits at place ⊢
  by_cases old : s < last.finished.length
  · rw [List.getElem?_append_left old] at place
    obtain ⟨bound, value⟩ := List.getElem?_eq_some_iff.mp place
    have parts : last.finished = last.finished.take s ++ split :: last.finished.drop (s + 1) := by
      rw [← value, getElem_cons_drop, take_append_drop]
    have listed := traced.finishedReads _ split _ parts i node first inside here j t b found
    have taken : (last.finished ++ [{ last.split with iEnd := graph.nodes.length }]).take (s + 1) =
        last.finished.take s ++ [split] := by
      rw [take_append_of_le_length (Nat.succ_le_of_lt old), ← value, take_append_getElem]
    rwa [taken]
  · have listed := traced.reads node j t b found
    rw [← mem_listedInputs] at listed ⊢
    rw [take_of_length_le, listedInputs_close]
    · exact listed
    · rw [length_append]
      exact Nat.succ_le_succ (Nat.le_of_not_lt old)

end

theorem lister_unique (once : (listedInputs splits).Nodup) {one other : Split}
    (oneMember : one ∈ splits) (otherMember : other ∈ splits) (oneLists : t ∈ one.inputs)
    (otherLists : t ∈ other.inputs) (sameBackend : one.backendId = other.backendId) :
    one = other := by
  induction splits with
  | nil => cases oneMember
  | cons split rest ih =>
    have parts : listedInputs (split :: rest) =
        split.inputs.map (·, split.backendId) ++ listedInputs rest := flatMap_cons ..
    rw [parts, nodup_append] at once
    obtain ⟨-, onceRest, apart⟩ := once
    have notBoth : ∀ later ∈ rest, t ∈ split.inputs → t ∈ later.inputs →
        split.backendId ≠ later.backendId := by
      intro later member here there same
      refine apart (t, split.backendId) (mem_map_of_mem here) _ ?_ rfl
      exact mem_listedInputs.mpr ⟨later, member, same.symm, there⟩
    rcases mem_cons.mp oneMember with rfl | oneLater
    · rcases mem_cons.mp otherMember with rfl | otherLater
      · rfl
      · exact absurd sameBackend (notBoth other otherLater oneLists otherLists)
    · rcases mem_cons.mp otherMember with rfl | otherLater
      · exact absurd sameBackend.symm (notBoth one oneLater otherLists oneLists)
      · exact ih onceRest oneLater otherLater

/-- The splits cover the node indices from `a` to `b` without a gap. -/
inductive Consecutive : List Split → Nat → Nat → Prop
  | nil (i : Nat) : Consecutive [] i i
  | cons {split : Split} {rest : List Split} {b : Nat} : split.iStart ≤ split.iEnd →
      Consecutive rest split.iEnd b → Consecutive (split :: rest) split.iStart b

theorem Consecutive.append {last : Split} {a : Nat} (covered : Consecutive splits a last.iStart)
    (ordered : last.iStart ≤ last.iEnd) : Consecutive (splits ++ [last]) a last.iEnd := by
  generalize goal : last.iStart = middle at covered
  induction covered with
  | nil i =>
    subst goal
    exact .cons ordered (.nil _)
  | cons inner _ ih => exact .cons inner (ih goal)

theorem Consecutive.pairwise {a b : Nat} (covered : Consecutive splits a b) :
    splits.Pairwise (fun one other => one.iEnd ≤ other.iStart) ∧ ∀ split ∈ splits, a ≤ split.iStart := by
  induction covered with
  | nil i => exact ⟨.nil, nofun⟩
  | cons inner _ ih =>
    refine ⟨pairwise_cons.mpr ⟨ih.2, ih.1⟩, fun split member => ?_⟩
    rcases mem_cons.mp member with rfl | later
    · exact le_refl _
    · exact le_trans inner (ih.2 split later)

/-- The ranges of the splits after the first `n` nodes. -/
structure Spans (n : Nat) (st : SplitState) : Prop where
  start : st.split.iStart ≤ n
  begun : st.split.inputs ≠ [] → st.split.iStart < n
  covered : Consecutive st.finished 0 st.split.iStart
  nonempty : ∀ split ∈ st.finished, split.inputs ≠ [] → split.iStart < split.iEnd

def SameSpans (st next : SplitState) : Prop :=
  next.finished = st.finished ∧ next.split.iStart = st.split.iStart

theorem splitSource_sameSpans (st : SplitState) (node : TensorId)
    (source : Fin ggmlMaxSrc × TensorId) :
    Ensures (splitSource sched graph backendIds node st source) (SameSpans st) := by
  have added : Ensures (addGraphInput sched graph backendIds st source.2) (SameSpans st) := by
    exact ensures_ite (fun _ => ensures_ite (fun _ => ensures_ok ⟨rfl, rfl⟩) fun _ => ensures_error)
      fun _ => ensures_ok ⟨rfl, rfl⟩
  refine added.bind fun middle same => ?_
  have made : Ensures (makeCopy sched graph middle node source.1 source.2) (SameSpans st) := by
    exact ensures_ite (fun _ => ensures_ok same) fun _ => ensures_ite (fun _ => ensures_ok same) fun _ =>
      ensures_ite (fun _ => ensures_ok same) fun _ => ensures_error
  refine ensures_ite (fun _ => ?_) fun _ => ensures_ok same
  split
  · exact made.bind fun next sameNext => ensures_ok sameNext
  · exact ensures_ok same

theorem splitNode_spans (spans : Spans n st) :
    Ensures (splitNode sched graph backendIds st (node, n)) (Spans (n + 1)) := by
  refine ensures_ite (fun _ => ensures_ok ⟨Nat.le_succ_of_le spans.start,
    fun some => Nat.lt_succ_of_lt (spans.begun some), spans.covered, spans.nonempty⟩) fun _ => ?_
  have opened : Ensures (openSplit sched graph backendIds (noteReduce graph st node) node n) fun next =>
      next.split.iStart ≤ n ∧ Consecutive next.finished 0 next.split.iStart ∧
        ∀ split ∈ next.finished, split.inputs ≠ [] → split.iStart < split.iEnd := by
    refine ensures_ite (fun _ => ensures_ite (fun _ => ensures_ok ⟨le_refl n, ?_, ?_⟩)
      fun _ => ensures_error) fun _ => ensures_ok ⟨spans.start, spans.covered, spans.nonempty⟩
    · exact @Consecutive.append _ { st.split with iEnd := n } _ spans.covered spans.start
    · intro split member some
      rcases mem_append.mp member with old | new
      · exact spans.nonempty split old some
      · obtain rfl := mem_singleton.mp new
        exact spans.begun some
  refine opened.bind fun first ⟨start, covered, nonempty⟩ => ?_
  have looped : Ensures ((sources graph node).foldlM (splitSource sched graph backendIds node) first)
      (SameSpans first) :=
    ensures_foldlM ⟨rfl, rfl⟩ fun state source _ same =>
      (splitSource_sameSpans state node source).mono fun next sameNext =>
        ⟨sameNext.1.trans same.1, sameNext.2.trans same.2⟩
  refine looped.mono fun next same => ?_
  obtain ⟨sameFinished, sameStart⟩ := same
  refine ⟨?_, fun _ => ?_, ?_, ?_⟩
  · rw [sameStart]
    exact Nat.le_succ_of_le start
  · rw [sameStart]
    exact Nat.lt_succ_of_le start
  · rw [sameFinished, sameStart]
    exact covered
  · rw [sameFinished]
    exact nonempty

theorem splitNodes_spans (oldBackend : BackendId) :
    Ensures (splitNodes sched graph backendIds oldBackend graph.nodes) (Spans graph.nodes.length) := by
  have start : Spans 0 (splitStart graph backendIds oldBackend) :=
    ⟨Nat.le_refl _, fun some => absurd rfl some, .nil 0, nofun⟩
  have spans : Ensures (splitNodes sched graph backendIds oldBackend graph.nodes)
      (Spans (0 + graph.nodes.length)) :=
    ensures_foldlM_zipIdx start fun i node state _ spans => splitNode_spans spans
  rwa [Nat.zero_add] at spans

theorem splitGraph_consecutive (made : splitGraph sched graph backendIds oldBackend = .ok st) :
    Consecutive st.splits 0 graph.nodes.length := by
  obtain ⟨last, ran, -, rfl⟩ := splitGraph_eq_ok made
  have spans := splitNodes_spans oldBackend last ran
  exact @Consecutive.append _ { last.split with iEnd := graph.nodes.length } _ spans.covered spans.start

theorem splitGraph_nonempty (made : splitGraph sched graph backendIds oldBackend = .ok st)
    {split : Split} (member : split ∈ st.splits) (some : split.inputs ≠ []) :
    split.iStart < split.iEnd := by
  obtain ⟨last, ran, -, rfl⟩ := splitGraph_eq_ok made
  have spans := splitNodes_spans oldBackend last ran
  rcases mem_append.mp member with old | new
  · exact spans.nonempty split old some
  · obtain rfl := mem_singleton.mp new
    exact spans.begun some

theorem Consecutive.covering {i a b : Nat} (covered : Consecutive splits a b) (low : a ≤ i)
    (high : i < b) : ∃ (s : Nat) (split : Split), splits[s]? = some split ∧ split.iStart ≤ i ∧
      i < split.iEnd ∧ ∀ other ∈ splits, other.iStart ≤ i → i < other.iEnd → other = split := by
  induction covered with
  | nil => omega
  | @cons head rest _ _ later ih =>
    rcases lt_or_ge i head.iEnd with inside | beyond
    · refine ⟨0, head, rfl, low, inside, fun other member from_ _ => ?_⟩
      rcases mem_cons.mp member with same | behind
      · exact same
      · have apart := later.pairwise.2 other behind
        omega
    · obtain ⟨s, split, place, first, last, unique⟩ := ih beyond high
      refine ⟨s + 1, split, place, first, last, fun other member from_ upto => ?_⟩
      rcases mem_cons.mp member with rfl | behind
      · omega
      · exact unique other behind from_ upto

/-- Every node is in one split, and a copy that it reads is listed there or before, each once. -/
theorem splitGraph_partition (made : splitGraph sched graph backendIds oldBackend = .ok st) :
    (listedInputs st.splits).Nodup ∧ ∀ i node, graph.nodes[i]? = some node →
      ∃ s split, st.splits[s]? = some split ∧ split.iStart ≤ i ∧ i < split.iEnd ∧
        (∀ other ∈ st.splits, other.iStart ≤ i → i < other.iEnd → other = split) ∧
        ∀ j t b, st.srcs node j = some (.copy t b sched.curCopy) →
          Listed (st.splits.take (s + 1)) t b := by
  refine ⟨splitGraph_once made, fun i node here => ?_⟩
  obtain ⟨s, split, place, first, inside, unique⟩ := (splitGraph_consecutive made).covering
    (Nat.zero_le i) (List.getElem?_eq_some_iff.mp here).1
  exact ⟨s, split, place, first, inside, unique,
    fun j t b found => splitGraph_reads made place first inside here found⟩

end LlamaCpp.Sched
