import LlamaCpp.Server.TaskSteps

/-!
# No task is lost or stranded

A posted task that nobody cancels is queued, deferred or in the loop's hand, or a slot works on
it, or it is answered; and while a task is deferred some slot is taken, so that its release
brings the task back.  Both hold when no task is deferred with every slot free and no slot with
a task is released without an answer, or answered and not released.
-/

set_option autoImplicit false

namespace LlamaCpp.Tasks

open List Option

/-- How many slots work on the task `t`. -/
def ServerState.works (s : ServerState) (t : Int) : Nat := s.slots.countP (ServerSlot.worksOn t)

/-- The places of the task `t`: the queues and the loop's hand, the slots, the answers. -/
def ServerState.places (s : ServerState) (t : Int) : Nat :=
  s.waits t + s.works t + if t ∈ s.answered then 1 else 0

def anyTaken (slots : List ServerSlot) : Bool := slots.any fun slot => !slot.available

/-- The slot that `process_single_task` starts the task on, if it starts it. -/
def startSlot (threshold : ℚ) (s : ServerState) (input : HandleInput) (task : ServerTask) :
    Option ServerSlot :=
  ((chosenSlot threshold s input task).bind fun n => s.slots[n]?).filter ServerSlot.available

/-- No step loses or strands a task: a slot is chosen when all are available; a system prompt
that is set and a cancelled decode meet slots only that work on cancelled tasks; no slot that
loads the prompt of another task is released. -/
def keepsTasks (threshold : ℚ) (s : ServerState) : Action → Bool
  | .handle input =>
    s.phase.hand.all fun task =>
      !task.type.launches ||
        (anyTaken s.slots || (chosenSlot threshold s input task).isSome) &&
          ((startSlot threshold s input task).isNone || !task.systemPrompt ||
            !input.promptAllowed ||
            s.slots.all fun slot =>
              decide (slot.state ≠ .processing) || decide (slot.idTask ∈ s.cancelPosted))
  | .work event =>
    !s.releasesLoading event &&
      (decide (event ≠ .decodeCancelled) ||
        s.slots.all fun slot => !slot.isProcessing || decide (slot.idTask ∈ s.cancelPosted))
  | _ => true

theorem works_le_count (s : ServerState) (t : Int) : s.works t ≤ s.slotTasks.count t := by
  rw [ServerState.slotTasks, List.count, countP_map]
  refine countP_mono_left fun slot _ works => ?_
  exact beq_iff_eq.mpr (ServerSlot.worksOn_iff.mp works).1

variable {slots : List ServerSlot}

theorem works_map {change : ServerSlot → ServerSlot} {t : Int}
    (same : ∀ slot ∈ slots, (change slot).worksOn t = slot.worksOn t) :
    (slots.map change).countP (ServerSlot.worksOn t) = slots.countP (ServerSlot.worksOn t) := by
  rw [countP_map]
  exact countP_congr fun slot member => by
    rw [Function.comp_apply, same slot member]

theorem works_set {n : Nat} {slot : ServerSlot} (found : slots[n]? = some slot)
    (changed : ServerSlot) (t : Int) :
    (slots.set n changed).countP (ServerSlot.worksOn t) + (if slot.worksOn t then 1 else 0) =
      slots.countP (ServerSlot.worksOn t) + if changed.worksOn t then 1 else 0 := by
  obtain ⟨bound, place⟩ := List.getElem?_eq_some_iff.mp found
  have part := boole_getElem_le_countP bound (p := ServerSlot.worksOn t)
  rw [countP_set bound, place]
  rw [place] at part
  omega

theorem works_releaseTask {idTarget t : Int} (other : t ≠ idTarget) (slots : List ServerSlot) :
    (releaseTask idTarget slots).countP (ServerSlot.worksOn t) =
      slots.countP (ServerSlot.worksOn t) := by
  induction slots with
  | nil => rfl
  | cons slot slots ih =>
    unfold releaseTask
    split
    · next here =>
        have idle : slot.worksOn t = false := ServerSlot.worksOn_eq_false.mpr fun same =>
          absurd (same.symm.trans here) other
        have after : slot.release.worksOn t = false := ServerSlot.worksOn_eq_false.mpr fun same =>
          absurd (same.symm.trans (slot.release_idTask.trans here)) other
        rw [countP_cons, countP_cons, idle, after]
    · rw [countP_cons, countP_cons, ih]

theorem anyTaken_iff : anyTaken slots = true ↔ ∃ slot ∈ slots, slot.available = false := by
  simp [anyTaken]

theorem anyTaken_map {change : ServerSlot → ServerSlot}
    (stays : ∀ slot, slot.available = false → (change slot).available = false)
    (taken : anyTaken slots = true) : anyTaken (slots.map change) = true := by
  obtain ⟨slot, member, busy⟩ := anyTaken_iff.mp taken
  exact anyTaken_iff.mpr ⟨change slot, mem_map_of_mem member, stays slot busy⟩

theorem ServerSlot.release_stays_taken (slot : ServerSlot) (taken : slot.available = false) :
    slot.release.available = false := by
  unfold ServerSlot.release
  split
  · simp [ServerSlot.available]
  · exact taken

theorem anyTaken_releaseTask {idTarget : Int} (taken : anyTaken slots = true) :
    anyTaken (releaseTask idTarget slots) = true := by
  induction slots with
  | nil => exact taken
  | cons slot slots ih =>
    rw [anyTaken, any_cons, Bool.or_eq_true, Bool.not_eq_true'] at taken
    unfold releaseTask
    split
    · rw [anyTaken, any_cons, Bool.or_eq_true, Bool.not_eq_true']
      exact taken.imp_left slot.release_stays_taken
    · rw [anyTaken, any_cons, Bool.or_eq_true, Bool.not_eq_true']
      exact taken.imp_right ih

theorem anyTaken_set {n : Nat} {slot : ServerSlot} (found : slots[n]? = some slot)
    (free : slot.available = true) (changed : ServerSlot) (taken : anyTaken slots = true) :
    anyTaken (slots.set n changed) = true := by
  obtain ⟨other, member, busy⟩ := anyTaken_iff.mp taken
  obtain ⟨j, bound, place⟩ := getElem_of_mem member
  have apart : n ≠ j := by
    rintro rfl
    have same := (List.getElem?_eq_getElem bound).symm.trans found
    rw [place] at same
    cases some.inj same
    rw [free] at busy
    cases busy
  refine anyTaken_iff.mpr ⟨other, ?_, busy⟩
  refine mem_of_getElem? (i := j) ?_
  rw [List.getElem?_set_ne apart, List.getElem?_eq_getElem bound, place]

/-- Every task that is not cancelled has one place, and a deferred one a slot to wait for. -/
structure ServerState.Accounted (s : ServerState) : Prop where
  placed : ∀ t ∈ s.posted, t ∉ s.cancelPosted → s.places t = 1
  taken : s.queue.queueTasksDeferred ≠ [] → anyTaken s.slots = true
  awake : s.phase = .working → s.queue.queueTasks ≠ []
  idle : s.blocked → anyTaken s.slots = false
  tidy : ∀ slot ∈ s.slots, slot.command = .release → slot.state = .idle

section Steps

variable {threshold : ℚ} {s next : ServerState}

variable {t : Int} {task : ServerTask} {n : Nat} {slot : ServerSlot} {after : ServerState}
  {slots : List ServerSlot} {input : HandleInput}

theorem places_of_same (waits : next.held.Perm s.held) (works : next.works t = s.works t)
    (answered : t ∈ next.answered ↔ t ∈ s.answered) : next.places t = s.places t := by
  have same : next.waits t = s.waits t := waits.countP_eq _
  simp [ServerState.places, same, works, answered]

theorem places_add (ids : s.Ids) (accounted : s.Accounted) (adds : s.Adds next task) :
    ∀ t ∈ next.posted, t ∉ next.cancelPosted → next.places t = 1 := by
  intro t posted kept
  have other : task.type = .cancel → t ≠ task.idTarget := fun cancel same =>
    kept (adds.mem_cancelPosted.mpr (Or.inr ⟨cancel, same⟩))
  have works : next.works t = s.works t := by
    rw [ServerState.works, ServerState.works, adds.slots]
  rw [ServerState.places, adds.waits t other, works, adds.answered]
  rcases adds.mem_posted.mp posted with before | ⟨_, rfl⟩
  · have new : task.id ≠ t := fun same => adds.fresh.unposted (same ▸ before)
    rw [if_neg new]
    exact accounted.placed t before fun cancelled =>
      kept (adds.mem_cancelPosted.mpr (Or.inl cancelled))
  · have idle : s.works task.id = 0 := Nat.le_zero.mp
      (ids.count_slotTasks adds.fresh.nonneg adds.fresh.unposted ▸ works_le_count s task.id)
    have unanswered : task.id ∉ s.answered := fun answered => by
      rcases ids.answeredPosted _ answered with none | before
      · have nonneg := adds.fresh.nonneg
        omega
      · exact adds.fresh.unposted before
    rw [adds.fresh.waits, idle, if_pos rfl, if_neg unanswered]

theorem handling_counts (ids : s.Ids) (accounted : s.Accounted) (t : Int) (after : ServerState)
    (held : s.held.Perm (task :: after.held)) (posted : t ∈ s.posted) (kept : t ∉ s.cancelPosted) :
    after.waits t + (if task.id = t then 1 else 0) + s.works t +
        (if t ∈ s.answered then 1 else 0) = 1 ∧ (task.id = t → s.slotTasks.count t = 0) := by
  have waits : s.waits t = after.waits t + if task.id = t then 1 else 0 := countP_perm_cons held t
  have one := accounted.placed t posted kept
  rw [ServerState.places, waits] at one
  refine ⟨one, fun same => ?_⟩
  have once := ids.unique t (ids.postedBelow t posted).1
  rw [waits, if_pos same] at once
  omega

theorem places_control (ids : s.Ids) (handling : s.phase = .handling task)
    (control : task.type.control = true) (posted : t ∈ s.posted)
    (works : next.works t = s.works t) (answered : t ∈ next.answered ↔ t ∈ s.answered)
    (held : s.held.Perm (task :: next.held)) : next.places t = s.places t := by
  have other : task.id ≠ t := fun same =>
    ids.heldControl task (mem_held_handling handling) control (same ▸ posted)
  have waits : s.waits t = next.waits t + if task.id = t then 1 else 0 := countP_perm_cons held t
  rw [if_neg other] at waits
  simp [ServerState.places, works, answered, waits]

theorem places_answered (ids : s.Ids) (accounted : s.Accounted)
    (handling : s.phase = .handling task) : ∀ t ∈ s.posted, t ∉ s.cancelPosted →
      ServerState.places { s.answer task.id with phase := .taking } t = 1 := by
  intro t posted kept
  obtain ⟨one, _⟩ := handling_counts ids accounted t
    { s.answer task.id with phase := .taking } (held_taking handling) posted kept
  change _ + s.works t + (if t ∈ task.id :: s.answered then 1 else 0) = 1
  by_cases same : task.id = t
  · rw [if_pos same] at one
    rw [if_pos (mem_cons.mpr (Or.inl same.symm))]
    omega
  · have different : t ∈ task.id :: s.answered ↔ t ∈ s.answered := by
      rw [mem_cons]
      exact or_iff_right fun is => same is.symm
    rw [if_neg same] at one
    simp only [different]
    omega

theorem works_system_release (kept : t ∉ s.cancelPosted)
    (harmless : task.systemPrompt = true → ∀ slot ∈ s.slots, slot.state = .processing → slot.idTask ∈ s.cancelPosted) :
    (if task.systemPrompt then s.slots.map ServerSlot.release else s.slots).countP
      (ServerSlot.worksOn t) = s.works t := by
  split
  · next system =>
      refine works_map fun slot member => ?_
      by_cases generating : slot.state = .processing
      · have other : slot.idTask ≠ t := fun same =>
          kept (same ▸ harmless system slot member generating)
        have before : slot.worksOn t = false :=
          ServerSlot.worksOn_eq_false.mpr fun same => absurd same other
        rw [before, ServerSlot.worksOn_eq_false, ServerSlot.release_idTask]
        exact fun same => absurd same other
      · rw [ServerSlot.release, if_neg generating]
  · rfl

theorem system_release_found (task : ServerTask) (found : s.slots[n]? = some slot)
    (free : slot.available = true) :
    (if task.systemPrompt then s.slots.map ServerSlot.release else s.slots)[n]? = some slot := by
  split
  · have idle : slot.state ≠ .processing := fun busy => by
      simp [ServerSlot.available, busy] at free
    rw [List.getElem?_map, found, map_some, ServerSlot.release, if_neg idle]
  · exact found

theorem places_launch {launched : ServerSlot} {answered : List Int} (ids : s.Ids)
    (accounted : s.Accounted) (handling : s.phase = .handling task)
    (found : s.slots[n]? = some slot) (free : slot.available = true)
    (id : launched.idTask = task.id)
    (harmless : task.systemPrompt = true → ∀ slot ∈ s.slots, slot.state = .processing → slot.idTask ∈ s.cancelPosted)
    (split : launched.isProcessing = true ∧ answered = s.answered ∨ launched.isProcessing = false ∧ answered = task.id :: s.answered) :
    ∀ t ∈ s.posted, t ∉ s.cancelPosted →
      ServerState.places
        { s with
          slots := (if task.systemPrompt then s.slots.map ServerSlot.release else s.slots).set n
            launched
          answered := answered
          phase := .taking } t = 1 := by
  intro t posted kept
  obtain ⟨one, apart⟩ := handling_counts ids accounted t
    { s with
      slots := (if task.systemPrompt then s.slots.map ServerSlot.release else s.slots).set n launched
      answered := answered
      phase := .taking } (held_taking handling) posted kept
  have moved := works_set (system_release_found task found free) launched t
  have idle : slot.worksOn t = false := ServerSlot.worksOn_eq_false.mpr fun _ =>
    ServerSlot.isProcessing_of_available free
  rw [works_system_release kept harmless, idle, if_neg Bool.false_ne_true] at moved
  simp only [ServerState.places, ServerState.works]
  by_cases same : task.id = t
  · have none : s.works t = 0 := Nat.le_zero.mp (apart same ▸ works_le_count s t)
    rw [if_pos same] at one
    rcases split with ⟨busy, rfl⟩ | ⟨quiet, rfl⟩
    · have works : launched.worksOn t = true := ServerSlot.worksOn_iff.mpr ⟨id.trans same, busy⟩
      rw [if_pos works] at moved
      omega
    · have works : launched.worksOn t = false := ServerSlot.worksOn_eq_false.mpr fun _ => quiet
      rw [works, if_neg Bool.false_ne_true] at moved
      rw [if_pos (mem_cons.mpr (Or.inl same.symm))]
      omega
  · have works : launched.worksOn t = false := ServerSlot.worksOn_eq_false.mpr fun is =>
      absurd (id.symm.trans is) same
    rw [works, if_neg Bool.false_ne_true] at moved
    rw [if_neg same] at one
    have known : t ∈ answered ↔ t ∈ s.answered := by
      rcases split with ⟨_, rfl⟩ | ⟨_, rfl⟩
      · exact Iff.rfl
      · rw [mem_cons]
        exact or_iff_right fun is => same is.symm
    simp only [known]
    omega

/-- Away from `NEXT_RESPONSE` and the wait only the places and the slots matter. -/
theorem accounted_of_away (away : next.phase ≠ .working ∧ next.phase ≠ .waiting)
    (placed : ∀ t ∈ next.posted, t ∉ next.cancelPosted → next.places t = 1)
    (taken : next.queue.queueTasksDeferred ≠ [] → anyTaken next.slots = true)
    (tidy : ∀ slot ∈ next.slots, slot.command = .release → slot.state = .idle) :
    next.Accounted where
  placed := placed
  taken := taken
  awake := fun working => absurd working away.1
  idle := fun blocked => absurd blocked.1 away.2
  tidy := tidy

theorem taking_away : LoopPhase.taking ≠ .working ∧ LoopPhase.taking ≠ .waiting := by
  decide

theorem releasing_away (n : Nat) :
    LoopPhase.releasing n ≠ .working ∧ LoopPhase.releasing n ≠ .waiting := by
  simp

theorem handling_away (task : ServerTask) :
    LoopPhase.handling task ≠ .working ∧ LoopPhase.handling task ≠ .waiting := by
  simp

theorem ServerState.Accounted.at (accounted : s.Accounted) (held : after.held.Perm s.held)
    (slots : after.slots = s.slots) (answered : after.answered = s.answered)
    (posted : after.posted = s.posted) (cancelPosted : after.cancelPosted = s.cancelPosted)
    (taken : after.queue.queueTasksDeferred ≠ [] → anyTaken after.slots = true)
    (awake : after.phase = .working → after.queue.queueTasks ≠ [])
    (idle : after.blocked → anyTaken after.slots = false) : after.Accounted where
  placed := fun t member kept => by
    rw [posted] at member
    rw [cancelPosted] at kept
    rw [places_of_same held (by rw [ServerState.works, ServerState.works, slots]) (by rw [answered])]
    exact accounted.placed t member kept
  taken := taken
  awake := awake
  idle := idle
  tidy := by rw [slots]; exact accounted.tidy

theorem ServerState.Accounted.goesOn (accounted : s.Accounted)
    (away : after.phase ≠ .working ∧ after.phase ≠ .waiting) (held : after.held.Perm s.held)
    (slots : after.slots = s.slots) (answered : after.answered = s.answered)
    (posted : after.posted = s.posted) (cancelPosted : after.cancelPosted = s.cancelPosted)
    (taken : after.queue.queueTasksDeferred ≠ [] → anyTaken after.slots = true) : after.Accounted :=
  accounted.at held slots answered posted cancelPosted taken (fun working => absurd working away.1)
    fun blocked => absurd blocked.1 away.2

theorem post_queue (queue : ServerQueue) (task : ServerTask) :
    (queue.post task).queueTasks ≠ [] ∧
      (queue.post task).queueTasksDeferred = queue.queueTasksDeferred := by
  obtain ⟨_, deferred, _⟩ := assignId_queue queue task
  exact ⟨by simp [ServerQueue.post], deferred⟩

theorem postNext_queue (front : Bool) (queue : ServerQueue) (task : ServerTask) :
    (queue.postNext front task).queueTasks ≠ [] ∧
      ((queue.postNext front task).queueTasksDeferred ≠ [] → queue.queueTasksDeferred ≠ []) := by
  obtain ⟨_, deferred, _⟩ := assignId_queue queue task
  have filtered : ∀ idTarget, ((queue.assignId task).2.cleanupPendingTask
      idTarget).queueTasksDeferred ≠ [] → queue.queueTasksDeferred ≠ [] := by
    intro idTarget some none
    simp [ServerQueue.cleanupPendingTask, deferred, none, not_true_eq_false] at some
  have back : ∀ (tasks : List ServerTask) (last : ServerTask), tasks ++ [last] ≠ [] :=
    fun tasks last => append_ne_nil_of_right_ne_nil tasks (cons_ne_nil last [])
  by_cases cancel : task.type = .cancel
  · cases front
    · simp only [ServerQueue.postNext, if_pos cancel]
      exact ⟨back _ _, filtered task.idTarget⟩
    · simp only [ServerQueue.postNext, if_pos cancel]
      exact ⟨cons_ne_nil _ _, filtered task.idTarget⟩
  · cases front
    · simp only [ServerQueue.postNext, if_neg cancel, deferred]
      exact ⟨back _ _, id⟩
    · simp only [ServerQueue.postNext, if_neg cancel, deferred]
      exact ⟨cons_ne_nil _ _, id⟩

theorem notePost_slots (task : ServerTask) : (s.notePost task).slots = s.slots := by
  unfold ServerState.notePost
  split <;> rfl

theorem ServerState.Accounted.post {assigned : ServerTask} {queue : ServerQueue}
    (accounted : s.Accounted) (ids : s.Ids)
    (adds : s.Adds { s.notePost task with queue := queue } assigned)
    (some : queue.queueTasks ≠ [])
    (deferred : queue.queueTasksDeferred ≠ [] → s.queue.queueTasksDeferred ≠ []) :
    ServerState.Accounted { s.notePost task with queue := queue } where
  placed := places_add ids accounted adds
  taken := fun waits => by
    rw [notePost_slots]
    exact accounted.taken (deferred waits)
  awake := fun _ => some
  idle := fun blocked => absurd blocked.2 some
  tidy := by
    rw [notePost_slots]
    exact accounted.tidy

theorem ServerState.Accounted.postSingle (accounted : s.Accounted) (ids : s.Ids)
    (posted : s.post task = some next) : next.Accounted := by
  have adds := post_adds ids posted
  unfold ServerState.post at posted
  split at posted
  · obtain rfl := some.inj posted
    obtain ⟨some, deferred⟩ := post_queue s.queue task
    exact accounted.post ids adds some fun waits => deferred ▸ waits
  · cases posted

theorem ServerState.Accounted.postNext {front : Bool} (accounted : s.Accounted) (ids : s.Ids)
    (posted : s.postNext front task = some next) : next.Accounted := by
  have adds := postNext_adds ids posted
  obtain ⟨_, rfl, _⟩ := held_postNext posted
  obtain ⟨some, deferred⟩ := postNext_queue front s.queue task
  exact accounted.post ids adds some deferred

section

variable (tidy : ∀ slot ∈ slots, slot.command = .release → slot.state = .idle)
include tidy

theorem tidy_set {changed : ServerSlot}
    (change : changed.command = .release → changed.state = .idle) :
    ∀ slot ∈ slots.set n changed, slot.command = .release → slot.state = .idle := by
  intro slot member
  rcases mem_or_eq_of_mem_set member with before | rfl
  · exact tidy slot before
  · exact change

theorem tidy_map {change : ServerSlot → ServerSlot}
    (changes : ∀ slot, (slot.command = .release → slot.state = .idle) → (change slot).command = .release → (change slot).state = .idle) :
    ∀ slot ∈ slots.map change, slot.command = .release → slot.state = .idle := by
  intro slot member
  obtain ⟨before, inside, rfl⟩ := mem_map.mp member
  exact changes before (tidy before inside)

theorem tidy_releaseTask {idTarget : Int} :
    ∀ slot ∈ releaseTask idTarget slots, slot.command = .release → slot.state = .idle := by
  induction slots with
  | nil => exact tidy
  | cons head slots ih =>
    have rest := fun slot member => tidy slot (mem_cons_of_mem head member)
    unfold releaseTask
    intro slot member
    split at member
    · rcases mem_cons.mp member with rfl | later
      · exact head.release_tidy (tidy head mem_cons_self)
      · exact rest slot later
    · rcases mem_cons.mp member with rfl | later
      · exact tidy slot mem_cons_self
      · exact ih rest slot later

end

theorem system_release_tidy (accounted : s.Accounted) :
    ∀ slot ∈ (if task.systemPrompt then s.slots.map ServerSlot.release else s.slots),
      slot.command = .release → slot.state = .idle := by
  split
  · exact tidy_map accounted.tidy ServerSlot.release_tidy
  · exact accounted.tidy

theorem system_release_taken (taken : anyTaken s.slots = true) :
    anyTaken (if task.systemPrompt then s.slots.map ServerSlot.release else s.slots) = true := by
  split
  · exact anyTaken_map ServerSlot.release_stays_taken taken
  · exact taken

theorem ServerState.Accounted.launch {launched : ServerSlot} {answered : List Int}
    (accounted : s.Accounted) (ids : s.Ids) (handling : s.phase = .handling task)
    (found : s.slots[n]? = some slot) (free : slot.available = true)
    (id : launched.idTask = task.id) (tidy : launched.command ≠ .release)
    (harmless : task.systemPrompt = true → ∀ slot ∈ s.slots, slot.state = .processing → slot.idTask ∈ s.cancelPosted)
    (split : launched.isProcessing = true ∧ answered = s.answered ∨ launched.isProcessing = false ∧ answered = task.id :: s.answered) :
    ServerState.Accounted
      { s with
        slots := (if task.systemPrompt then s.slots.map ServerSlot.release else s.slots).set n
          launched
        answered := answered
        phase := .taking } :=
  accounted_of_away taking_away
    (places_launch ids accounted handling found free id harmless split)
    (fun waits => anyTaken_set (system_release_found task found free) free launched
      (system_release_taken (accounted.taken waits)))
    (tidy_set (system_release_tidy accounted) fun released => absurd released tidy)

theorem startSlot_some (chosen : chosenSlot threshold s input task = some n)
    (found : s.slots[n]? = some slot) (free : slot.available = true) :
    startSlot threshold s input task = some slot := by
  rw [startSlot, chosen, bind_some, found, filter_some, if_pos free]

theorem keepsTasks_handle (keeps : keepsTasks threshold s (.handle input) = true)
    (handling : s.phase = .handling task) (launches : task.type.launches = true) :
    (anyTaken s.slots = true ∨ chosenSlot threshold s input task ≠ none) ∧
      ∀ n slot, chosenSlot threshold s input task = some n → s.slots[n]? = some slot →
        slot.available = true → task.systemPrompt = true → input.promptAllowed = true →
        ∀ other ∈ s.slots, other.state = .processing → other.idTask ∈ s.cancelPosted := by
  simp only [keepsTasks, handling, LoopPhase.hand, all_cons, all_nil, Bool.and_true,
    launches, Bool.not_true, Bool.false_or, Bool.and_eq_true, Bool.or_eq_true] at keeps
  refine ⟨keeps.1.imp_right isSome_iff_ne_none.mp, ?_⟩
  intro n slot chosen found free system allowed other member generating
  rcases keeps.2 with start | spared
  · simp [startSlot_some chosen found free, system, allowed] at start
  · have one := all_eq_true.mp spared other member
    simpa [generating] using one

theorem ServerState.Accounted.handle (accounted : s.Accounted) (ids : s.Ids)
    (handling : s.phase = .handling task) (handled : Handled threshold s input task after)
    (keeps : keepsTasks threshold s (.handle input) = true) :
    ServerState.Accounted { after with phase := .taking } := by
  cases handled with
  | deferred request busy =>
    refine accounted_of_away taking_away (fun t member kept => ?_) (fun _ => ?_) accounted.tidy
    · refine Eq.trans ?_ (accounted.placed t member kept)
      exact places_of_same (deferred_held handling) rfl Iff.rfl
    · rcases busy with taken | ⟨launches, none⟩
      · exact anyTaken_iff.mpr taken
      · exact (keepsTasks_handle keeps handling launches).1.resolve_right fun some => some none
  | answered request =>
    exact accounted_of_away taking_away (places_answered ids accounted handling) accounted.taken
      accounted.tidy
  | started n slot found free launches chosen allowed =>
    have harmless := (keepsTasks_handle keeps handling launches).2 n slot chosen found free
    obtain ⟨idle, _⟩ := of_decide_eq_true free
    refine accounted.launch ids handling found free rfl (fun same => by cases same)
      (fun system => harmless system (allowed system)) (Or.inl ⟨?_, rfl⟩)
    simp [ServerSlot.isProcessing, ServerSlot.loading, idle]
  | failed n slot found free launches chosen allowed =>
    have harmless := (keepsTasks_handle keeps handling launches).2 n slot chosen found free
    obtain ⟨idle, none⟩ := of_decide_eq_true free
    refine accounted.launch ids handling found free rfl ?_
      (fun system => harmless system (allowed system)) (Or.inr ⟨?_, rfl⟩)
    · rw [none]
      intro same
      cases same
    · simp [ServerSlot.isProcessing, ServerSlot.loading, idle, none]
  | cancelled cancel =>
    have posted := ids.heldCancel task (mem_held_handling handling) cancel
    refine accounted_of_away taking_away (fun t member kept => ?_)
      (fun waits => anyTaken_releaseTask (accounted.taken waits)) (tidy_releaseTask accounted.tidy)
    have other : t ≠ task.idTarget := fun same => kept (same ▸ posted)
    refine Eq.trans ?_ (accounted.placed t member kept)
    exact places_control ids handling (by rw [cancel]; rfl) member
      (works_releaseTask other s.slots) Iff.rfl (held_taking handling)
  | ignored response =>
    refine accounted_of_away taking_away (fun t member kept => ?_) accounted.taken accounted.tidy
    refine Eq.trans ?_ (accounted.placed t member kept)
    exact places_control ids handling (by rw [response]; rfl) member rfl Iff.rfl
      (held_taking handling)

theorem ServerState.Accounted.releaseSlot {now : Int} (accounted : s.Accounted)
    (releasing : s.phase = .releasing n) (found : s.slots[n]? = some slot) :
    ServerState.Accounted { s.releaseSlot now n slot with phase := .releasing (n + 1) } := by
  unfold ServerState.releaseSlot
  split
  · next released =>
      have idle : ∀ t, slot.worksOn t = false := fun t => ServerSlot.worksOn_eq_false.mpr fun _ => by
        simp [ServerSlot.isProcessing, ServerSlot.loading, released,
          accounted.tidy slot (mem_of_getElem? found) released]
      refine accounted_of_away (releasing_away (n + 1)) (fun t member kept => ?_)
        (fun waits => absurd rfl waits) (tidy_set accounted.tidy fun same => by cases same)
      refine Eq.trans ?_ (accounted.placed t member kept)
      refine places_of_same ?_ ?_ Iff.rfl
      · simp only [ServerState.held, ServerQueue.notifySlotChanged, releasing, LoopPhase.hand,
          append_nil]
        exact List.Perm.refl _
      · have moved := works_set found
          { slot with state := .idle, command := .none, tLastUsed := now } t
        have after : ServerSlot.worksOn t
            { slot with state := .idle, command := .none, tLastUsed := now } = false :=
          ServerSlot.worksOn_eq_false.mpr fun _ => by
            simp [ServerSlot.isProcessing, ServerSlot.loading]
        rw [idle t, after] at moved
        exact moved
  · refine accounted.goesOn (releasing_away (n + 1)) ?_ rfl rfl rfl rfl accounted.taken
    rw [ServerState.held, ServerState.held, releasing]
    exact List.Perm.refl _

theorem places_atSlot {changed : ServerSlot} {answers : Bool} (accounted : s.Accounted)
    (found : s.slots[n]? = some slot) (busy : slot.isProcessing = true)
    (same : changed.idTask = slot.idTask)
    (settled : answers = !changed.isProcessing ∨ slot.idTask ∈ s.cancelPosted) :
    ∀ t ∈ s.posted, t ∉ s.cancelPosted →
      ServerState.places
        { s with
          slots := s.slots.set n changed
          answered := if answers then slot.idTask :: s.answered else s.answered } t = 1 := by
  intro t posted kept
  have one := accounted.placed t posted kept
  have moved := works_set found changed t
  simp only [ServerState.places, ServerState.works] at one ⊢
  change s.waits t + (s.slots.set n changed).countP (ServerSlot.worksOn t) + _ = 1
  by_cases here : slot.idTask = t
  · have works : slot.worksOn t = true := ServerSlot.worksOn_iff.mpr ⟨here, busy⟩
    have part : 1 ≤ s.slots.countP (ServerSlot.worksOn t) :=
      countP_pos_iff.mpr ⟨slot, mem_of_getElem? found, works⟩
    have unanswered : t ∉ s.answered := fun known => by rw [if_pos known] at one; omega
    rw [if_pos works] at moved
    have right := settled.resolve_right fun cancelled => kept (here ▸ cancelled)
    cases still : changed.isProcessing with
    | true =>
      have goes : changed.worksOn t = true := ServerSlot.worksOn_iff.mpr ⟨same.trans here, still⟩
      rw [if_pos goes] at moved
      rw [still] at right
      rw [right, Bool.not_true, if_neg Bool.false_ne_true]
      omega
    | false =>
      have stops : changed.worksOn t = false := ServerSlot.worksOn_eq_false.mpr fun _ => still
      rw [stops, if_neg Bool.false_ne_true] at moved
      rw [still] at right
      rw [right, Bool.not_false, if_pos rfl, if_pos (mem_cons.mpr (Or.inl here.symm))]
      omega
  · have before : slot.worksOn t = false := ServerSlot.worksOn_eq_false.mpr fun is => absurd is here
    have after : changed.worksOn t = false := ServerSlot.worksOn_eq_false.mpr fun is =>
      absurd (same.symm.trans is) here
    rw [before, after] at moved
    have known : (t ∈ if answers then slot.idTask :: s.answered else s.answered) ↔
        t ∈ s.answered := by
      cases answers with
      | true => exact mem_cons.trans (or_iff_right fun is => here is.symm)
      | false => exact Iff.rfl
    simp only [known]
    omega

theorem places_released {answers : Bool} (ids : s.Ids) (accounted : s.Accounted)
    (settled : answers = false → ∀ slot ∈ s.slots, slot.isProcessing = true →
      slot.idTask ∈ s.cancelPosted) :
    ∀ t ∈ s.posted, t ∉ s.cancelPosted →
      ServerState.places
        { s with
          slots := s.slots.map ServerSlot.forceRelease
          answered := if answers then s.slotTasks ++ s.answered else s.answered } t = 1 := by
  intro t posted kept
  have one := accounted.placed t posted kept
  have none : (s.slots.map ServerSlot.forceRelease).countP (ServerSlot.worksOn t) = 0 := by
    refine countP_eq_zero.mpr fun slot member works => ?_
    obtain ⟨before, _, rfl⟩ := mem_map.mp member
    have busy := (ServerSlot.worksOn_iff.mp works).2
    cases busy
  simp only [ServerState.places] at one ⊢
  change s.waits t + (s.slots.map ServerSlot.forceRelease).countP (ServerSlot.worksOn t) + _ = 1
  cases answers with
  | true =>
    rw [if_pos rfl]
    have once := ids.unique t (ids.postedBelow t posted).1
    have few := works_le_count s t
    by_cases slot : t ∈ s.slotTasks
    · have some := count_pos_iff.mpr slot
      rw [if_pos (mem_append_left _ slot)]
      omega
    · have nowhere := count_eq_zero.mpr slot
      have known : t ∈ s.slotTasks ++ s.answered ↔ t ∈ s.answered := by
        rw [mem_append]
        exact or_iff_right slot
      simp only [known]
      omega
  | false =>
    have idle : s.works t = 0 := by
      refine countP_eq_zero.mpr fun slot member works => ?_
      obtain ⟨same, busy⟩ := ServerSlot.worksOn_iff.mp works
      exact kept (same ▸ settled rfl slot member busy)
    rw [if_neg Bool.false_ne_true]
    omega

theorem ServerState.Accounted.work {event : SlotEvent} (accounted : s.Accounted) (ids : s.Ids)
    (working : s.phase = .working) (worked : Worked s event after)
    (keeps : keepsTasks threshold s (.work event) = true) : after.Accounted := by
  simp only [keepsTasks, Bool.and_eq_true, Bool.not_eq_true', Bool.or_eq_true,
    decide_eq_true_eq] at keeps
  cases worked with
  | atSlot n slot changed answers found busy same taken tidy settled =>
    have inside : n < s.slots.length := (List.getElem?_eq_some_iff.mp found).1
    refine ⟨places_atSlot accounted found busy same ?_, fun _ => ?_, accounted.awake,
      fun blocked => ?_, tidy_set accounted.tidy ?_⟩
    · rcases settled with right | cancelled | released
      · exact Or.inl right
      · exact Or.inr cancelled
      · rw [keeps.1] at released
        cases released
    · exact anyTaken_iff.mpr ⟨changed, mem_set inside changed, taken⟩
    · rw [working] at blocked
      cases blocked.1
    · exact tidy (accounted.tidy slot (mem_of_getElem? found))
  | released answers settled =>
    refine ⟨places_released ids accounted fun silent => ?_, fun waits => ?_, accounted.awake,
      fun blocked => ?_, tidy_map accounted.tidy fun _ _ _ => rfl⟩
    · rcases settled with answered | cancelled
      · rw [silent] at answered
        cases answered
      · intro slot member busy
        have spared := keeps.2.resolve_left fun other => other cancelled
        have one := all_eq_true.mp spared slot member
        simpa [busy] using one
    · exact anyTaken_map (fun slot _ => slot.forceRelease_available) (accounted.taken waits)
    · rw [working] at blocked
      cases blocked.1

/-- The loop takes the next task or goes on to `release_slots`. -/
theorem ServerState.Accounted.take (accounted : s.Accounted)
    (stepped : step threshold s .take = some next) : next.Accounted := by
  simp only [Tasks.step] at stepped
  split at stepped
  · next taking =>
      split at stepped
      · obtain rfl := some.inj stepped
        refine accounted.goesOn (releasing_away 0) ?_ rfl rfl rfl rfl accounted.taken
        rw [ServerState.held, ServerState.held, taking]
        exact List.Perm.refl _
      · next task tasks queued =>
          obtain rfl := some.inj stepped
          refine accounted.goesOn (handling_away task) ?_ rfl rfl rfl rfl accounted.taken
          simp only [ServerState.held, taking, queued, LoopPhase.hand, append_nil]
          rw [← append_assoc]
          exact perm_append_singleton _ _
  · cases stepped

theorem slotsIdle_iff : s.slotsIdle = true ↔ anyTaken s.slots = false := by
  simp [ServerState.slotsIdle, anyTaken]

theorem ServerState.Accounted.release {now : Int} (accounted : s.Accounted) (ids : s.Ids)
    (stepped : Tasks.step threshold s (.release now) = some next) : next.Accounted := by
  obtain ⟨n, releasing, ⟨slot, found, rfl⟩ | ⟨_, idle, rfl⟩ | ⟨_, _, rfl⟩⟩ := release_step stepped
  · exact accounted.releaseSlot releasing found
  · refine accounted.at ?_ rfl rfl rfl rfl accounted.taken (fun working => by cases working)
      fun _ => slotsIdle_iff.mp idle
    rw [ServerState.held, ServerState.held, releasing]
    exact List.Perm.refl _
  · obtain ⟨some, deferred⟩ := post_queue s.queue { type := .nextResponse }
    refine ⟨places_add ids accounted (nextResponse_adds ids releasing), fun waits => ?_,
      fun _ => some, fun blocked => (by cases blocked.1), accounted.tidy⟩
    exact accounted.taken (deferred ▸ waits)

theorem ServerState.Accounted.step {action : Action} (accounted : s.Accounted) (ids : s.Ids)
    (keeps : keepsTasks threshold s action = true)
    (stepped : Tasks.step threshold s action = some next) : next.Accounted := by
  cases action with
  | getNewId =>
    obtain rfl := some.inj stepped
    exact accounted.at (List.Perm.refl _) rfl rfl rfl rfl accounted.taken accounted.awake
      accounted.idle
  | post task => exact accounted.postSingle ids stepped
  | postAll front tasks =>
    have kept := postAll_induct (fun state => state.Ids ∧ state.Accounted) tasks
      (fun state after task _ holds posted =>
        ⟨holds.1.add (postNext_adds holds.1 posted), holds.2.postNext holds.1 posted⟩)
      ⟨ids, accounted⟩ stepped
    exact kept.2
  | take => exact accounted.take stepped
  | handle input =>
    obtain ⟨task, handling, after, handled, rfl⟩ := handle_step stepped
    exact accounted.handle ids handling handled keeps
  | release now => exact accounted.release ids stepped
  | work event =>
    simp only [Tasks.step] at stepped
    split at stepped
    · next working => exact accounted.work ids working (work_worked stepped) keeps
    · cases stepped
  | workDone =>
    simp only [Tasks.step] at stepped
    split at stepped
    · next working =>
        obtain rfl := some.inj stepped
        refine accounted.at ?_ rfl rfl rfl rfl accounted.taken (fun waits => by cases waits)
          fun blocked => absurd blocked.2 (accounted.awake working)
        rw [ServerState.held, ServerState.held, working]
        exact List.Perm.refl _
    · cases stepped
  | wake =>
    simp only [Tasks.step] at stepped
    split at stepped
    · next waiting =>
        obtain rfl := some.inj stepped
        refine accounted.goesOn taking_away ?_ rfl rfl rfl rfl accounted.taken
        rw [ServerState.held, ServerState.held, waiting.1]
        exact List.Perm.refl _
    · cases stepped

theorem accounted_initial (nParallel : Nat) : (ServerState.initial nParallel).Accounted := by
  refine accounted_of_away taking_away (fun t member => absurd member not_mem_nil)
    (fun waits => absurd rfl waits) fun slot member => ?_
  obtain ⟨id, _, rfl⟩ := mem_map.mp member
  intro same
  cases same

/-- In every run that loses and strands no task, a posted task that is not cancelled has one
place, a deferred one waits for a slot that is taken, so that the loop does not block on it,
and the release of that slot moves it back to the queue. -/
theorem tasks_accounted {nParallel : Nat}
    (run : Lib.Reaches (Tasks.step threshold)
      (fun state action => keepsTasks threshold state action = true)
      (ServerState.initial nParallel) s) :
    (∀ t ∈ s.posted, t ∉ s.cancelPosted → s.places t = 1) ∧
      (s.queue.queueTasksDeferred ≠ [] → ∃ slot ∈ s.slots, slot.available = false) ∧
      (s.blocked → s.queue.queueTasksDeferred ≠ [] → ∃ slot ∈ s.slots, slot.isProcessing = true) ∧
      ∀ now n slot next, s.phase = .releasing n → s.slots[n]? = some slot →
        slot.command = .release → Tasks.step threshold s (.release now) = some next →
        next.queue.queueTasks = s.queue.queueTasks ++ s.queue.queueTasksDeferred ∧
          next.queue.queueTasksDeferred = [] := by
  have both : s.Ids ∧ s.Accounted :=
    run.invariant (fun state => state.Ids ∧ state.Accounted)
      ⟨.initial nParallel, accounted_initial nParallel⟩ fun _ _ _ holds keeps stepped =>
        ⟨holds.1.step stepped, holds.2.step holds.1 keeps stepped⟩
  have accounted := both.2
  refine ⟨accounted.placed, fun waits => anyTaken_iff.mp (accounted.taken waits), ?_, ?_⟩
  · intro blocked waits
    have taken := accounted.taken waits
    rw [accounted.idle blocked] at taken
    cases taken
  · intro now n slot next releasing found released stepped
    simp only [Tasks.step, releasing, found, some.injEq] at stepped
    rw [← stepped]
    simp [ServerState.releaseSlot, if_pos released, ServerQueue.notifySlotChanged]

/-- A completion that is deferred while the only slot generates, and comes back with its release. -/
def deferWhileGenerating : List Action :=
  [.post { type := .completion }, .post { type := .completion }, .take, .handle { now := 0 }, .take,
    .handle { now := 0 }, .take, .release 0, .release 0, .work (.promptDone 0), .workDone]

theorem tasks_accounted_at_deferred :
    ∃ s : ServerState, s.queue.queueTasksDeferred ≠ [] ∧ s.places 0 = 1 ∧ s.places 1 = 1 ∧
      ∃ slot ∈ s.slots, slot.available = false := by
  have passed : (Lib.runChecked (Tasks.step 0) (fun state action => keepsTasks 0 state action = true)
      (ServerState.initial 1) deferWhileGenerating).any (fun state =>
        decide (state.queue.queueTasksDeferred ≠ [] ∧ state.posted = [1, 0] ∧
          state.cancelPosted = [])) = true := by decide +kernel
  obtain ⟨s, run, shown⟩ := Lib.exists_reaches_of_runChecked deferWhileGenerating passed
  obtain ⟨waits, posted, cancelled⟩ := of_decide_eq_true shown
  obtain ⟨placed, taken, _⟩ := tasks_accounted run
  exact ⟨s, waits, placed 0 (by simp [posted]) (by simp [cancelled]),
    placed 1 (by simp [posted]) (by simp [cancelled]), taken waits⟩

def deferForNoSlot : List Action :=
  [.post { type := .completion, idSlot := 7 }, .take, .handle { now := 0 }, .take, .release 0,
    .release 0]

def cancelBoth : List Action :=
  [.post { type := .completion }, .post { type := .completion }, .take, .handle { now := 0 }, .take,
    .handle { now := 0 }, .take, .release 0, .release 0, .release 0, .work (.promptDone 0),
    .work (.promptDone 1), .work .decodeCancelled]

/-- The loop blocks on a deferred task with no slot processing, and a task is in no place. -/
theorem tasks_stranded_and_lost :
    (∃ s : ServerState, Lib.Reaches (Tasks.step 0) (fun _ _ => True) (ServerState.initial 1) s ∧
      s.blocked ∧ s.queue.queueTasksDeferred ≠ [] ∧
        ∀ slot ∈ s.slots, slot.isProcessing = false) ∧
      ∃ s : ServerState, Lib.Reaches (Tasks.step 0) (fun _ _ => True) (ServerState.initial 2) s ∧
        1 ∈ s.posted ∧ 1 ∉ s.cancelPosted ∧ s.places 1 = 0 := by
  constructor
  · have passed : (Lib.runChecked (Tasks.step 0) (fun _ _ => True) (ServerState.initial 1)
        deferForNoSlot).any (fun state =>
          decide (state.blocked ∧
            state.queue.queueTasksDeferred ≠ [] ∧
              ∀ slot ∈ state.slots, slot.isProcessing = false)) = true := by decide +kernel
    obtain ⟨s, run, shown⟩ := Lib.exists_reaches_of_runChecked deferForNoSlot passed
    exact ⟨s, run, of_decide_eq_true shown⟩
  · have passed : (Lib.runChecked (Tasks.step 0) (fun _ _ => True) (ServerState.initial 2)
        cancelBoth).any (fun state =>
          decide (1 ∈ state.posted ∧ 1 ∉ state.cancelPosted ∧ state.places 1 = 0)) = true := by
      decide +kernel
    obtain ⟨s, run, shown⟩ := Lib.exists_reaches_of_runChecked cancelBoth passed
    exact ⟨s, run, of_decide_eq_true shown⟩

end Steps

end LlamaCpp.Tasks
