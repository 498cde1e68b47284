import LlamaCpp.Server.TaskSteps

/-!
# Cancelled tasks

After the loop has processed the `CANCEL` of a task no slot works on it and none will, when the
`CANCEL` finds it where its clean-up looks.  It misses a task in the loop's hand, one that waits
when the `CANCEL` is posted alone, and a slot that still loads its prompt.
-/

set_option autoImplicit false

namespace LlamaCpp.Tasks

open List

/-- None of the tasks would be launched under the identifier `t`. -/
def noneLaunches (t : Int) (tasks : List ServerTask) : Bool :=
  tasks.all fun task => decide (task.id ≠ t) || !task.type.launches

/-- A `CANCEL` reaches its task: posted alone while the task does not wait, or in a batch while
the loop does not have it in hand, and processed while no slot loads its prompt. -/
def cancelsReach (s : ServerState) : Action → Bool
  | .post task => decide (task.type ≠ .cancel) || noneLaunches task.idTarget s.held
  | .postAll _ tasks =>
    tasks.all fun task =>
      decide (task.type ≠ .cancel) || noneLaunches task.idTarget s.phase.hand
  | .handle _ =>
    s.phase.hand.all fun task =>
      decide (task.type ≠ .cancel) ||
        s.slots.all fun slot => decide (slot.idTask ≠ task.idTarget) || !slot.loading
  | _ => true

theorem noneLaunches_iff {t : Int} {tasks : List ServerTask} :
    noneLaunches t tasks = true ↔ ∀ task ∈ tasks, task.id = t → task.type.launches = false := by
  simp [noneLaunches, ← imp_iff_not_or]

/-- No cancelled task waits to be launched, and none whose `CANCEL` is processed is worked on. -/
structure ServerState.Cancelled (s : ServerState) : Prop where
  quiet : ∀ t ∈ s.cancelPosted, noneLaunches t s.held = true
  stopped : ∀ t ∈ s.cancelDone, ∀ slot ∈ s.slots, slot.worksOn t = false

def SlotsSettle (slots after : List ServerSlot) : Prop :=
  ∀ slot ∈ after, ∃ before ∈ slots, slot.idTask = before.idTask ∧
    (slot.isProcessing = true → before.isProcessing = true)

theorem SlotsSettle.refl (slots : List ServerSlot) : SlotsSettle slots slots :=
  fun slot member => ⟨slot, member, rfl, id⟩

variable {slots : List ServerSlot}

theorem SlotsSettle.set {n : Nat} {slot changed : ServerSlot} (found : slots[n]? = some slot)
    (same : changed.idTask = slot.idTask)
    (settles : changed.isProcessing = true → slot.isProcessing = true) :
    SlotsSettle slots (slots.set n changed) := by
  intro other member
  rcases mem_or_eq_of_mem_set member with before | rfl
  · exact ⟨other, before, rfl, id⟩
  · exact ⟨slot, mem_of_getElem? found, same, settles⟩

theorem SlotsSettle.map {change : ServerSlot → ServerSlot}
    (same : ∀ slot, (change slot).idTask = slot.idTask)
    (settles : ∀ slot, (change slot).isProcessing = true → slot.isProcessing = true)
    (slots : List ServerSlot) : SlotsSettle slots (slots.map change) := by
  intro other member
  obtain ⟨slot, inside, rfl⟩ := mem_map.mp member
  exact ⟨slot, inside, same slot, settles slot⟩

theorem ServerSlot.isProcessing_of_release (slot : ServerSlot)
    (busy : slot.release.isProcessing = true) : slot.isProcessing = true := by
  rw [ServerSlot.release_isProcessing] at busy
  exact ServerSlot.isProcessing_of_loading busy

theorem SlotsSettle.stopped {after : List ServerSlot} (settle : SlotsSettle slots after) {t : Int}
    (stopped : ∀ slot ∈ slots, slot.worksOn t = false) :
    ∀ slot ∈ after, slot.worksOn t = false := by
  intro slot member
  obtain ⟨before, inside, same, settles⟩ := settle slot member
  refine ServerSlot.worksOn_eq_false.mpr fun is => ?_
  have idle := ServerSlot.worksOn_eq_false.mp (stopped before inside) (same ▸ is)
  exact Bool.eq_false_iff.mpr fun busy => Bool.eq_false_iff.mp idle (settles busy)

/-- With the identifier on one slot at most, the `CANCEL` releases every slot that has it. -/
theorem releaseTask_eq_map {idTarget : Int}
    (once : (slots.map ServerSlot.idTask).count idTarget ≤ 1) : releaseTask idTarget slots =
      slots.map fun slot => if slot.idTask = idTarget then slot.release else slot := by
  induction slots with
  | nil => rfl
  | cons slot slots ih =>
    rw [map_cons, count_cons] at once
    unfold releaseTask
    by_cases here : slot.idTask = idTarget
    · rw [if_pos here, map_cons, if_pos here]
      have none : idTarget ∉ slots.map ServerSlot.idTask := by
        refine count_eq_zero.mp ?_
        rw [if_pos (beq_iff_eq.mpr here)] at once
        omega
      congr 1
      refine (map_id slots).symm.trans (map_congr_left fun other member => ?_)
      have other : other.idTask ≠ idTarget := fun same =>
        none (same ▸ mem_map_of_mem member)
      rw [if_neg other, id_eq]
    · rw [if_neg here, map_cons, if_neg here, ih]
      rw [if_neg fun same => here (beq_iff_eq.mp same)] at once
      exact once

section Steps

variable {threshold : ℚ} {s next : ServerState}

theorem ServerState.Cancelled.keep (cancelled : s.Cancelled) (keeps : s.Keeps next)
    (done : next.cancelDone = s.cancelDone) (settle : SlotsSettle s.slots next.slots) :
    next.Cancelled where
  quiet := fun t member => by
    rw [keeps.cancelPosted] at member
    have quiet := noneLaunches_iff.mp (cancelled.quiet t member)
    exact noneLaunches_iff.mpr fun task held => quiet task (keeps.held.subset held)
  stopped := fun t member => by
    rw [done] at member
    exact settle.stopped (cancelled.stopped t member)

variable {task : ServerTask} {n : Nat} {after : ServerState}

theorem ServerState.Cancelled.add (cancelled : s.Cancelled) (ids : s.Ids)
    (adds : s.Adds next task)
    (clean : task.type = .cancel → ∀ other ∈ next.held, other.id = task.idTarget → other.type.launches = false) :
    next.Cancelled where
  quiet := fun t member => by
    refine noneLaunches_iff.mpr fun other held same => ?_
    rcases adds.mem_cancelPosted.mp member with before | ⟨cancel, rfl⟩
    · rcases mem_cons.mp (adds.held.subset held) with rfl | waits
      · exact absurd (ids.cancelled t before) (same ▸ adds.fresh.unposted)
      · exact noneLaunches_iff.mp (cancelled.quiet t before) other waits same
    · exact clean cancel other held same
  stopped := fun t member => by
    rw [adds.done] at member
    rw [adds.slots]
    exact cancelled.stopped t member

theorem launches_of_cancel (cancel : task.type = .cancel) : task.type.launches = false := by
  rw [cancel]
  rfl

theorem ServerState.Cancelled.post (cancelled : s.Cancelled) (ids : s.Ids)
    (posted : s.post task = some next) (reach : cancelsReach s (.post task) = true) :
    next.Cancelled := by
  have adds := post_adds ids posted
  refine cancelled.add ids adds fun cancel other held same => ?_
  rw [assignId_type] at cancel
  rw [assignId_idTarget] at same
  rcases mem_cons.mp (adds.held.subset held) with rfl | waits
  · rw [assignId_type]
    exact launches_of_cancel cancel
  · rw [cancelsReach, Bool.or_eq_true] at reach
    have none := reach.resolve_left fun request => of_decide_eq_true request cancel
    exact noneLaunches_iff.mp none other waits same

theorem ServerState.Cancelled.postNext {front : Bool} (cancelled : s.Cancelled) (ids : s.Ids)
    (posted : s.postNext front task = some next)
    (reach : task.type = .cancel → noneLaunches task.idTarget s.phase.hand = true) :
    next.Cancelled := by
  obtain ⟨_, _, same⟩ := held_postNext posted
  refine cancelled.add ids (postNext_adds ids posted) fun cancel other held is => ?_
  rw [assignId_type] at cancel
  rw [assignId_idTarget] at is
  rw [if_pos cancel] at same
  rcases mem_cons.mp (same.subset held) with rfl | waits
  · rw [assignId_type]
    exact launches_of_cancel cancel
  · have inHand : other ∈ s.phase.hand := by
      simpa [ServerState.uncancelled, is] using waits
    exact noneLaunches_iff.mp (reach cancel) other inHand is

/-- Processing the `CANCEL` stops the work on its task. -/
theorem ServerState.Cancelled.cancel (cancelled : s.Cancelled) (ids : s.Ids)
    (handling : s.phase = .handling task) (cancel : task.type = .cancel)
    (reach : ∀ slot ∈ s.slots, slot.idTask = task.idTarget → slot.loading = false) :
    ∀ t ∈ task.idTarget :: s.cancelDone, ∀ slot ∈ releaseTask task.idTarget s.slots,
      slot.worksOn t = false := by
  have posted := ids.cancelled _ (ids.heldCancel task (mem_held_handling handling) cancel)
  have once := ids.unique _ (ids.postedBelow _ posted).1
  rw [releaseTask_eq_map (by rw [ServerState.slotTasks] at once; omega)]
  intro t member
  rcases mem_cons.mp member with rfl | before
  · intro slot inside
    obtain ⟨old, was, rfl⟩ := mem_map.mp inside
    refine ServerSlot.worksOn_eq_false.mpr fun is => ?_
    split at is
    · next here =>
        rw [if_pos here, ServerSlot.release_isProcessing]
        exact reach old was here
    · next other => exact absurd is other
  · refine (SlotsSettle.map ?_ ?_ s.slots).stopped (cancelled.stopped t before)
    · intro slot
      split
      · exact slot.release_idTask
      · rfl
    · intro slot
      split
      · exact slot.isProcessing_of_release
      · exact id

theorem system_release_settles (task : ServerTask) :
    SlotsSettle s.slots (if task.systemPrompt then s.slots.map ServerSlot.release else s.slots) := by
  split
  · exact SlotsSettle.map ServerSlot.release_idTask ServerSlot.isProcessing_of_release s.slots
  · exact SlotsSettle.refl s.slots

theorem ServerState.Cancelled.start (cancelled : s.Cancelled) (ids : s.Ids)
    (handling : s.phase = .handling task) (starts : s.Starts next task n)
    (launches : task.type.launches = true)
    (slots : ∀ slot ∈ next.slots, slot.idTask = task.id ∨ ∃ before ∈ s.slots, slot.idTask = before.idTask ∧ (slot.isProcessing = true → before.isProcessing = true)) :
    next.Cancelled where
  quiet := fun t member => by
    rw [starts.cancelPosted] at member
    have quiet := noneLaunches_iff.mp (cancelled.quiet t member)
    exact noneLaunches_iff.mpr fun other held =>
      quiet other (starts.held.symm.subset (mem_cons_of_mem task held))
  stopped := fun t member slot inside => by
    rw [starts.done] at member
    rcases slots slot inside with started | ⟨before, was, same, settles⟩
    · refine ServerSlot.worksOn_eq_false.mpr fun is => ?_
      have quiet := noneLaunches_iff.mp (cancelled.quiet t (ids.done t member)) task
        (mem_held_handling handling) (started.symm.trans is)
      rw [launches] at quiet
      cases quiet
    · have idle := ServerSlot.worksOn_eq_false.mp (cancelled.stopped t member before was)
      refine ServerSlot.worksOn_eq_false.mpr fun is => Bool.eq_false_iff.mpr fun busy => ?_
      exact Bool.eq_false_iff.mp (idle (same ▸ is)) (settles busy)

theorem ServerState.Cancelled.handle {input : HandleInput} (cancelled : s.Cancelled) (ids : s.Ids)
    (handling : s.phase = .handling task) (handled : Handled threshold s input task after)
    (reach : cancelsReach s (.handle input) = true) :
    ServerState.Cancelled { after with phase := .taking } := by
  have changed : ∀ {n : Nat} {launched : ServerSlot}, launched.idTask = task.id →
      ∀ slot ∈ (if task.systemPrompt then s.slots.map ServerSlot.release else s.slots).set n
        launched, slot.idTask = task.id ∨ ∃ before ∈ s.slots, slot.idTask = before.idTask ∧
          (slot.isProcessing = true → before.isProcessing = true) := by
    intro n launched same slot inside
    rcases mem_or_eq_of_mem_set inside with before | rfl
    · exact Or.inr (system_release_settles task slot before)
    · exact Or.inl same
  cases handled with
  | deferred request =>
    exact cancelled.keep (deferred_keeps handling) rfl (SlotsSettle.refl s.slots)
  | answered request =>
    exact cancelled.keep (answered_keeps handling request) rfl (SlotsSettle.refl s.slots)
  | started n slot found free launches chosen allowed =>
    exact cancelled.start ids handling
      (launch_starts handling found launches _ s.answered rfl fun _ => Or.inl) launches
      (changed rfl)
  | failed n slot found free launches chosen allowed =>
    exact cancelled.start ids handling
      (launch_starts handling found launches _ (task.id :: s.answered) rfl
        fun t member => (mem_cons.mp member).symm) launches (changed rfl)
  | cancelled cancel =>
    have keeps := cancelled_keeps ids handling cancel
    refine ⟨?_, cancelled.cancel ids handling cancel ?_⟩
    · intro t member
      have quiet := noneLaunches_iff.mp (cancelled.quiet t member)
      exact noneLaunches_iff.mpr fun other held => quiet other (keeps.held.subset held)
    · intro slot member same
      simp only [cancelsReach, handling, LoopPhase.hand, all_cons, all_nil,
        Bool.and_true, Bool.or_eq_true, cancel, ne_eq, not_true, false_or, all_eq_true, decide_eq_true_eq,
        Bool.not_eq_true'] at reach
      exact (reach slot member).resolve_left fun other => other same
  | ignored response =>
    exact cancelled.keep (ignored_keeps handling) rfl (SlotsSettle.refl s.slots)

theorem releaseSlot_settles {now : Int} {slot : ServerSlot} (found : s.slots[n]? = some slot) :
    SlotsSettle s.slots (s.releaseSlot now n slot).slots := by
  unfold ServerState.releaseSlot
  split
  · refine SlotsSettle.set found rfl fun busy => ?_
    simp [ServerSlot.isProcessing, ServerSlot.loading] at busy
  · exact SlotsSettle.refl s.slots

theorem worked_settles {event : SlotEvent} (worked : Worked s event after) :
    SlotsSettle s.slots after.slots := by
  cases worked with
  | atSlot n slot changed answers found busy same taken tidy settled =>
    exact SlotsSettle.set found same fun _ => busy
  | released answers settled =>
    refine SlotsSettle.map ServerSlot.forceRelease_idTask (fun slot busy => ?_) s.slots
    cases busy

theorem worked_done {event : SlotEvent} (worked : Worked s event after) :
    after.cancelDone = s.cancelDone := by
  cases worked <;> rfl

theorem releaseSlot_done {now : Int} {slot : ServerSlot} :
    (s.releaseSlot now n slot).cancelDone = s.cancelDone := by
  unfold ServerState.releaseSlot
  split <;> rfl

theorem postNext_phase {front : Bool} (posted : s.postNext front task = some next) :
    next.phase = s.phase := by
  obtain ⟨_, rfl, _⟩ := held_postNext posted
  unfold ServerState.notePost
  split <;> rfl

theorem ServerState.Cancelled.step {action : Action} (cancelled : s.Cancelled) (ids : s.Ids)
    (reach : cancelsReach s action = true) (stepped : step threshold s action = some next) :
    next.Cancelled := by
  cases action with
  | getNewId =>
    obtain rfl := Option.some.inj stepped
    exact ⟨cancelled.quiet, cancelled.stopped⟩
  | post task => exact cancelled.post ids stepped reach
  | postAll front tasks =>
    have all := all_eq_true.mp reach
    have kept := postAll_induct
      (fun state => state.Ids ∧ state.Cancelled ∧ state.phase = s.phase) tasks
      (fun state after task member holds posted => by
        obtain ⟨ids, cancelled, phase⟩ := holds
        refine ⟨ids.add (postNext_adds ids posted), cancelled.postNext ids posted ?_,
          (postNext_phase posted).trans phase⟩
        intro cancel
        rw [phase]
        exact (Bool.or_eq_true_iff.mp (all task member)).resolve_left fun request =>
          of_decide_eq_true request cancel)
      ⟨ids, cancelled, rfl⟩ stepped
    exact kept.2.1
  | take =>
    have keeps := take_keeps stepped
    simp only [Tasks.step] at stepped
    split at stepped
    · split at stepped
      · obtain rfl := Option.some.inj stepped
        exact cancelled.keep keeps rfl (SlotsSettle.refl s.slots)
      · obtain rfl := Option.some.inj stepped
        exact cancelled.keep keeps rfl (SlotsSettle.refl s.slots)
    · cases stepped
  | handle input =>
    obtain ⟨task, handling, after, handled, rfl⟩ := handle_step stepped
    exact cancelled.handle ids handling handled reach
  | release now =>
    obtain ⟨n, releasing, ⟨slot, found, rfl⟩ | ⟨_, _, rfl⟩ | ⟨_, _, rfl⟩⟩ := release_step stepped
    · exact cancelled.keep (releaseSlot_keeps releasing found) releaseSlot_done
        (releaseSlot_settles found)
    · exact cancelled.keep (phase_keeps (by rw [releasing]; rfl)) rfl (SlotsSettle.refl s.slots)
    · exact cancelled.add ids (nextResponse_adds ids releasing) fun cancel => by cases cancel
  | work event =>
    simp only [Tasks.step] at stepped
    split at stepped
    · have worked := work_worked stepped
      exact cancelled.keep (worked_keeps worked) (worked_done worked) (worked_settles worked)
    · cases stepped
  | workDone =>
    simp only [Tasks.step] at stepped
    split at stepped
    · next working =>
        obtain rfl := Option.some.inj stepped
        exact cancelled.keep (phase_keeps (by rw [working]; rfl)) rfl (SlotsSettle.refl s.slots)
    · cases stepped
  | wake =>
    simp only [Tasks.step] at stepped
    split at stepped
    · next waiting =>
        obtain rfl := Option.some.inj stepped
        exact cancelled.keep (phase_keeps (by rw [waiting.1]; rfl)) rfl
          (SlotsSettle.refl s.slots)
    · cases stepped

/-- In every run whose cancels reach their tasks, no slot works on a task whose `CANCEL` is
processed, and no waiting task could be launched as it. -/
theorem cancelled_task_stops {nParallel : Nat}
    (run : Lib.Reaches (step threshold) (fun state action => cancelsReach state action = true)
      (ServerState.initial nParallel) s) :
    ∀ t ∈ s.cancelDone, (∀ slot ∈ s.slots, slot.worksOn t = false) ∧
      ∀ task ∈ s.held, task.id = t → task.type.launches = false := by
  have both : s.Ids ∧ s.Cancelled := by
    have initial : (ServerState.initial nParallel).Cancelled :=
      ⟨fun t member => absurd member not_mem_nil, fun t member =>
        absurd member not_mem_nil⟩
    refine run.invariant (fun state => state.Ids ∧ state.Cancelled)
      ⟨.initial nParallel, initial⟩ ?_
    · intro state action next holds reach stepped
      exact ⟨holds.1.step stepped, holds.2.step holds.1 reach stepped⟩
  intro t member
  exact ⟨both.2.stopped t member, noneLaunches_iff.mp (both.2.quiet t (both.1.done t member))⟩

def cancelGenerating : List Action :=
  [.post { type := .completion }, .take, .handle { now := 0 }, .take, .release 0, .release 0,
    .work (.promptDone 0), .workDone, .wake, .postAll true [{ type := .cancel, idTarget := 0 }],
    .take, .handle { now := 0 }]

theorem cancelled_task_stops_at_generating :
    ∃ s : ServerState, 0 ∈ s.cancelDone ∧ ∀ slot ∈ s.slots, slot.worksOn 0 = false := by
  have passed : (Lib.runChecked (step 0) (fun state action => cancelsReach state action = true)
      (ServerState.initial 1) cancelGenerating).any
        (fun state => decide (0 ∈ state.cancelDone)) = true := by decide +kernel
  obtain ⟨s, run, done⟩ := Lib.exists_reaches_of_runChecked cancelGenerating passed
  have member := of_decide_eq_true done
  exact ⟨s, member, (cancelled_task_stops run 0 member).1⟩

def cancelLoading : List Action :=
  [.post { type := .completion }, .take, .handle { now := 0 },
    .postAll true [{ type := .cancel, idTarget := 0 }], .take, .handle { now := 0 }]

/-- The slot goes on with the task: its release does nothing while the prompt is loading. -/
theorem cancelled_task_goes_on :
    ∃ s : ServerState, Lib.Reaches (step 0) (fun _ _ => True) (ServerState.initial 1) s ∧
      0 ∈ s.cancelDone ∧ ∃ slot ∈ s.slots, slot.worksOn 0 = true := by
  have passed : (Lib.runChecked (step 0) (fun _ _ => True) (ServerState.initial 1)
      cancelLoading).any (fun state =>
        decide (0 ∈ state.cancelDone) && state.slots.any (ServerSlot.worksOn 0)) = true := by
    decide +kernel
  obtain ⟨s, run, shown⟩ := Lib.exists_reaches_of_runChecked cancelLoading passed
  obtain ⟨done, works⟩ := Bool.and_eq_true_iff.mp shown
  exact ⟨s, run, of_decide_eq_true done, any_eq_true.mp works⟩

end Steps

end LlamaCpp.Tasks
