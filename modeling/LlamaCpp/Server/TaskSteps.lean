import LlamaCpp.Server.TaskIds

/-!
# What each step does to the tasks

Every step of an HTTP thread or of the loop keeps the waiting tasks, adds one or starts one;
`Handled` says the same of `process_single_task`, with what decides between the cases.
-/

set_option autoImplicit false

namespace LlamaCpp.Tasks

open List Option

section Steps

variable {threshold : ℚ} {s next : ServerState}

theorem assignId_type (queue : ServerQueue) (task : ServerTask) :
    (queue.assignId task).1.type = task.type := by
  unfold ServerQueue.assignId
  split <;> rfl

theorem assignId_idTarget (queue : ServerQueue) (task : ServerTask) :
    (queue.assignId task).1.idTarget = task.idTarget := by
  unfold ServerQueue.assignId
  split <;> rfl

theorem assignId_queue (queue : ServerQueue) (task : ServerTask) :
    (queue.assignId task).2.queueTasks = queue.queueTasks ∧
      (queue.assignId task).2.queueTasksDeferred = queue.queueTasksDeferred ∧
      queue.id ≤ (queue.assignId task).2.id := by
  unfold ServerQueue.assignId
  split
  · exact ⟨rfl, rfl, Int.le_add_one (Int.le_refl _)⟩
  · exact ⟨rfl, rfl, Int.le_refl _⟩

variable {task : ServerTask} {front : Bool} {input : HandleInput} {n : Nat} {slot : ServerSlot}
  {event : SlotEvent}

theorem ServerState.Ids.fresh_assigned {s : ServerState} (ids : s.Ids)
    (allowed : task.id = -1 ∨ task.id ∈ s.reserved) : s.Fresh (s.queue.assignId task).1.id ∧
      (s.queue.assignId task).1.id < (s.queue.assignId task).2.id ∧
      (s.queue.assignId task).1.id ∉ s.reserved.erase task.id := by
  unfold ServerQueue.assignId
  split
  · refine ⟨ids.fresh_next, Int.lt_succ _, fun member => ?_⟩
    have below := (ids.reservedBelow _ (mem_of_mem_erase member)).2.1
    exact Int.lt_irrefl _ below
  · next given =>
      obtain ⟨nonneg, below, unposted, free⟩ :=
        ids.reservedBelow _ (allowed.resolve_left given)
      exact ⟨⟨nonneg, free, unposted⟩, below, ids.reservedNodup.not_mem_erase⟩

theorem postable_request (allowed : s.postable task = true) (request : task.type ≠ .cancel) :
    task.type.control = false ∧ (task.id = -1 ∨ task.id ∈ s.reserved) := by
  unfold ServerState.postable at allowed
  split at allowed
  · cases allowed
  · next cancel => exact absurd cancel request
  · next noResponse noCancel =>
      simp_all [ServerTaskType.control]

theorem postable_cancel (allowed : s.postable task = true) (cancel : task.type = .cancel) :
    task.id = -1 ∧ task.idTarget ∈ s.posted := by
  simp only [ServerState.postable, cancel] at allowed
  exact of_decide_eq_true allowed

theorem adds_of_post {queue : ServerQueue} (ids : s.Ids) (allowed : s.postable task = true)
    (id : queue.id = (s.queue.assignId task).2.id)
    (held : (queue.queueTasks ++ (queue.queueTasksDeferred ++ s.phase.hand)).Subperm ((s.queue.assignId task).1 :: s.held))
    (waits : ∀ t, (task.type = .cancel → t ≠ task.idTarget) → (queue.queueTasks ++ (queue.queueTasksDeferred ++ s.phase.hand)).countP (fun other => decide (other.id = t)) = s.waits t + if (s.queue.assignId task).1.id = t then 1 else 0) :
    s.Adds { s.notePost task with queue := queue } (s.queue.assignId task).1 := by
  have given : task.id = -1 ∨ task.id ∈ s.reserved := by
    by_cases cancel : task.type = .cancel
    · exact Or.inl (postable_cancel allowed cancel).1
    · exact (postable_request allowed cancel).2
  obtain ⟨fresh, below, unreserved⟩ := ids.fresh_assigned given
  have grows := (assignId_queue s.queue task).2.2
  by_cases cancel : task.type = .cancel
  · have free : (s.queue.assignId task).1.id ∉ s.reserved := fun member =>
      absurd (ids.reservedBelow _ member).2.1 (by
        simp [ServerQueue.assignId, (postable_cancel allowed cancel).1])
    simp only [ServerState.notePost, if_pos cancel]
    exact {
      id := id ▸ grows, below := id ▸ below, fresh := fresh, held := held
      waits := fun t other => waits t fun _ same => other (by rw [assignId_type, cancel])
        (by rw [assignId_idTarget, same])
      slots := rfl, answered := rfl, reserved := List.Sublist.refl _, unreserved := free
      posted := by simp [assignId_type, cancel, ServerTaskType.control]
      cancelPosted := by simp [assignId_type, assignId_idTarget, cancel]
      target := fun _ => by rw [assignId_idTarget]; exact (postable_cancel allowed cancel).2
      done := rfl, phase := rfl }
  · simp only [ServerState.notePost, if_neg cancel]
    exact {
      id := id ▸ grows, below := id ▸ below, fresh := fresh, held := held
      waits := fun t _ => waits t fun cancels => absurd cancels cancel
      slots := rfl, answered := rfl, reserved := erase_sublist, unreserved := unreserved
      posted := by simp [assignId_type, (postable_request allowed cancel).1]
      cancelPosted := by simp [assignId_type, cancel]
      target := fun cancels => absurd (assignId_type s.queue task ▸ cancels) cancel
      done := rfl, phase := rfl }

theorem held_push_back (tasks deferred hand : List ServerTask) (task : ServerTask) :
    (tasks ++ [task] ++ (deferred ++ hand)).Perm (task :: (tasks ++ (deferred ++ hand))) := by
  rw [append_assoc]
  exact perm_middle

theorem countP_perm_cons {tasks rest : List ServerTask} (same : tasks.Perm (task :: rest))
    (t : Int) : tasks.countP (fun other => decide (other.id = t)) =
      rest.countP (fun other => decide (other.id = t)) + if task.id = t then 1 else 0 := by
  rw [same.countP_eq, countP_cons]
  simp

theorem post_adds (ids : s.Ids) (posted : s.post task = some next) :
    s.Adds next (s.queue.assignId task).1 := by
  unfold ServerState.post at posted
  split at posted
  · next allowed =>
      obtain rfl := some.inj posted
      obtain ⟨tasks, deferred, _⟩ := assignId_queue s.queue task
      have same := held_push_back s.queue.queueTasks s.queue.queueTasksDeferred s.phase.hand
        (s.queue.assignId task).1
      refine adds_of_post ids allowed rfl ?_ ?_
      · simp only [ServerQueue.post, tasks, deferred]
        exact same.subperm
      · intro t _
        simp only [ServerQueue.post, tasks, deferred]
        exact countP_perm_cons same t
  · cases posted

/-- The waiting tasks that the clean-up of a `CANCEL` leaves. -/
def ServerState.uncancelled (s : ServerState) (idTarget : Int) : List ServerTask :=
  (s.queue.queueTasks.filter fun task => decide (task.id ≠ idTarget)) ++
    ((s.queue.queueTasksDeferred.filter fun task => decide (task.id ≠ idTarget)) ++ s.phase.hand)

theorem uncancelled_sublist (s : ServerState) (idTarget : Int) :
    (s.uncancelled idTarget).Sublist s.held :=
  filter_sublist.append (filter_sublist.append (List.Sublist.refl _))

theorem countP_uncancelled (s : ServerState) {idTarget t : Int} (other : t ≠ idTarget) :
    (s.uncancelled idTarget).countP (fun task => decide (task.id = t)) = s.waits t := by
  have kept : ∀ tasks : List ServerTask,
      (tasks.filter fun task => decide (task.id ≠ idTarget)).countP
        (fun task => decide (task.id = t)) = tasks.countP fun task => decide (task.id = t) := by
    intro tasks
    rw [countP_filter]
    refine countP_congr fun task _ => ?_
    simp only [decide_eq_true_eq, Bool.and_eq_true]
    exact ⟨fun both => both.1, fun same => ⟨same, same ▸ other⟩⟩
  rw [ServerState.uncancelled, ServerState.waits, ServerState.held]
  simp only [countP_append, kept]

theorem held_postNext (posted : s.postNext front task = some next) :
    s.postable task = true ∧ next = { s.notePost task with queue := s.queue.postNext front task } ∧
      next.held.Perm ((s.queue.assignId task).1 ::
        if task.type = .cancel then s.uncancelled task.idTarget else s.held) := by
  unfold ServerState.postNext at posted
  split at posted
  · next allowed =>
      obtain rfl := some.inj posted
      refine ⟨allowed, rfl, ?_⟩
      obtain ⟨tasks, deferred, _⟩ := assignId_queue s.queue task
      have phase : (s.notePost task).phase = s.phase := by
        unfold ServerState.notePost
        split <;> rfl
      by_cases cancel : task.type = .cancel
      · cases front
        · simp only [ServerQueue.postNext, if_pos cancel, ServerQueue.cleanupPendingTask, tasks, deferred, phase]
          exact held_push_back _ _ _ _
        · simp only [ServerQueue.postNext, if_pos cancel, ServerQueue.cleanupPendingTask, tasks, deferred, phase]
          exact List.Perm.refl _
      · cases front
        · simp only [ServerQueue.postNext, if_neg cancel, tasks, deferred, phase]
          exact held_push_back _ _ _ _
        · simp only [ServerQueue.postNext, if_neg cancel, tasks,
            deferred, phase]
          exact List.Perm.refl _
  · cases posted

theorem postNext_adds (ids : s.Ids) (posted : s.postNext front task = some next) :
    s.Adds next (s.queue.assignId task).1 := by
  obtain ⟨allowed, equal, same⟩ := held_postNext posted
  have phase : (s.notePost task).phase = s.phase := by
    unfold ServerState.notePost
    split <;> rfl
  rw [equal] at same ⊢
  simp only [ServerState.held, phase] at same
  refine adds_of_post ids allowed ?_ ?_ ?_
  · unfold ServerQueue.postNext
    split <;> split <;> rfl
  · by_cases cancel : task.type = .cancel
    · rw [if_pos cancel] at same
      exact same.subperm.trans ((uncancelled_sublist s task.idTarget).cons_cons _).subperm
    · rw [if_neg cancel] at same
      exact same.subperm
  · intro t other
    rw [countP_perm_cons same]
    by_cases cancel : task.type = .cancel
    · rw [if_pos cancel, countP_uncancelled s (other cancel)]
    · rw [if_neg cancel]
      rfl

theorem postAll_induct (Holds : ServerState → Prop) (tasks : List ServerTask)
    (preserved : ∀ s next, ∀ task ∈ tasks, Holds s → s.postNext front task = some next → Holds next)
    {s : ServerState} (holds : Holds s) (posted : s.postAll front tasks = some next) :
    Holds next := by
  induction tasks generalizing s with
  | nil =>
    obtain rfl := some.inj posted
    exact holds
  | cons task tasks ih =>
    obtain ⟨middle, first, rest⟩ := bind_eq_some_iff.mp posted
    have after := preserved s middle task mem_cons_self holds first
    exact ih (fun s next other member => preserved s next other (mem_cons_of_mem task member))
      after rest

/-- The position `process_single_task` takes for a task to launch. -/
def chosenSlot (threshold : ℚ) (s : ServerState) (input : HandleInput) (task : ServerTask) :
    Option Nat :=
  if task.idSlot ≠ -1 then getSlotById task.idSlot s.slots
  else getAvailableSlot threshold input.similarity input.now s.slots

/-- What `process_single_task` does with a task. -/
inductive Handled (threshold : ℚ) (s : ServerState) (input : HandleInput) (task : ServerTask) :
    ServerState → Prop
  | deferred (request : task.type.control = false)
      (busy : (∃ slot ∈ s.slots, slot.available = false) ∨
        task.type.launches = true ∧ chosenSlot threshold s input task = none) :
      Handled threshold s input task { s with queue := s.queue.defer task }
  | answered (request : task.type.control = false) :
      Handled threshold s input task (s.answer task.id)
  | started (n : Nat) (slot : ServerSlot) (found : s.slots[n]? = some slot)
      (free : slot.available = true) (launches : task.type.launches = true)
      (chosen : chosenSlot threshold s input task = some n)
      (allowed : task.systemPrompt = true → input.promptAllowed = true) :
      Handled threshold s input task
        { s with
          slots := (if task.systemPrompt then s.slots.map ServerSlot.release else s.slots).set n
            { slot with idTask := task.id, command := .loadPrompt } }
  | failed (n : Nat) (slot : ServerSlot) (found : s.slots[n]? = some slot)
      (free : slot.available = true) (launches : task.type.launches = true)
      (chosen : chosenSlot threshold s input task = some n)
      (allowed : task.systemPrompt = true → input.promptAllowed = true) :
      Handled threshold s input task
        { s.answer task.id with
          slots := (if task.systemPrompt then s.slots.map ServerSlot.release else s.slots).set n
            { slot with idTask := task.id } }
  | cancelled (cancel : task.type = .cancel) :
      Handled threshold s input task
        { s with
          slots := releaseTask task.idTarget s.slots
          cancelDone := task.idTarget :: s.cancelDone }
  | ignored (response : task.type = .nextResponse) : Handled threshold s input task s

theorem handled_startTask (launches : task.type.launches = true) (found : s.slots[n]? = some slot)
    (free : slot.available = true) (chosen : chosenSlot threshold s input task = some n) :
    Handled threshold s input task (s.startTask input task n slot) := by
  have request : task.type.control = false := by
    cases kind : task.type <;> simp_all [ServerTaskType.launches, ServerTaskType.control]
  unfold ServerState.startTask
  split
  · exact .answered request
  · next permitted =>
      have allowed : task.systemPrompt = true → input.promptAllowed = true := fun system =>
        (Bool.not_eq_false _).mp fun refused => permitted ⟨system, refused⟩
      dsimp only
      split
      · exact .started n slot found free launches chosen allowed
      · exact .failed n slot found free launches chosen allowed

theorem handled_processLaunch (launches : task.type.launches = true) :
    Handled threshold s input task (s.processLaunch threshold input task) := by
  have request : task.type.control = false := by
    cases kind : task.type <;> simp_all [ServerTaskType.launches, ServerTaskType.control]
  unfold ServerState.processLaunch
  cases chosen : chosenSlot threshold s input task with
  | none =>
    have none := chosen
    unfold chosenSlot at none
    simp only [none]
    exact .deferred request (Or.inr ⟨launches, chosen⟩)
  | some n =>
    have present : ∃ slot, s.slots[n]? = some slot := by
      unfold chosenSlot at chosen
      split at chosen
      · obtain ⟨slot, found, _⟩ := getSlotById_some chosen
        exact ⟨slot, found⟩
      · obtain ⟨slot, found, _⟩ := getAvailableSlot_some chosen
        exact ⟨slot, found⟩
    obtain ⟨slot, found⟩ := present
    have some := chosen
    unfold chosenSlot at some
    simp only [some, bind_some, found, map_some]
    cases free : slot.available with
    | false => exact .deferred request (Or.inl ⟨slot, mem_of_getElem? found, free⟩)
    | true => exact handled_startTask launches found free chosen

theorem handled_processSlotAction (request : task.type.control = false) :
    Handled threshold s input task (s.processSlotAction task) := by
  unfold ServerState.processSlotAction
  split
  · exact .answered request
  · next slot found =>
      obtain ⟨n, _, place⟩ := bind_eq_some_iff.mp found
      cases free : slot.available with
      | false => exact .deferred request (Or.inl ⟨slot, mem_of_getElem? place, free⟩)
      | true => exact .answered request

theorem handled_processSingleTask (input : HandleInput) (task : ServerTask) :
    Handled threshold s input task (s.processSingleTask threshold input task) := by
  unfold ServerState.processSingleTask
  cases kind : task.type with
  | completion | embedding | rerank | infill => exact handled_processLaunch (by rw [kind]; rfl)
  | cancel => exact .cancelled kind
  | nextResponse => exact .ignored kind
  | slotSave | slotRestore | slotErase => exact handled_processSlotAction (by rw [kind]; rfl)
  | metrics | setLora | loadControlVector | unloadControlVector | setControlVector =>
    exact .answered (by rw [kind]; rfl)

theorem keeps_of_slots (slots : List ServerSlot) (phase : LoopPhase) (answered : List Int)
    (hand : phase.hand = s.phase.hand) (same : slots.map ServerSlot.idTask = s.slotTasks)
    (known : ∀ t ∈ answered, t ∈ s.answered ∨ t ∈ s.slotTasks) :
    s.Keeps { s with slots := slots, phase := phase, answered := answered } where
  id := rfl
  held := by rw [ServerState.held, hand]; exact (List.Perm.refl _).subperm
  slotTasks := same
  reserved := rfl
  posted := rfl
  cancelPosted := rfl
  answered := fun t member => (known t member).imp_right Or.inl
  done := fun t member => Or.inl member

theorem take_keeps (taken : step threshold s .take = some next) : s.Keeps next := by
  simp only [step] at taken
  split at taken
  · next taking =>
      split at taken
      · obtain rfl := some.inj taken
        exact keeps_of_slots s.slots (.releasing 0) s.answered (by rw [taking]; rfl) rfl
          fun t member => Or.inl member
      · next task tasks queued =>
          obtain rfl := some.inj taken
          refine ⟨rfl, ?_, rfl, rfl, rfl, rfl, fun t member => Or.inl member,
            fun t member => Or.inl member⟩
          simp only [ServerState.held, taking, queued, LoopPhase.hand, append_nil]
          rw [← append_assoc]
          exact (perm_append_singleton _ _).subperm
  · cases taken

section

variable (handling : s.phase = .handling task)
include handling

theorem hand_handling :
    s.held = s.queue.queueTasks ++ (s.queue.queueTasksDeferred ++ [task]) := by
  rw [ServerState.held, handling, LoopPhase.hand]

theorem held_taking :
    s.held.Perm (task :: (s.queue.queueTasks ++ (s.queue.queueTasksDeferred ++ []))) := by
  rw [hand_handling handling, append_nil, ← append_assoc]
  exact perm_append_singleton _ _

theorem mem_held_handling :
    task ∈ s.held := (held_taking handling).symm.subset mem_cons_self

theorem keeps_of_handled (slots : List ServerSlot)
    (answered cancelDone : List Int) (same : slots.map ServerSlot.idTask = s.slotTasks)
    (known : ∀ t ∈ answered, t ∈ s.answered ∨ task.type.control = false ∧ t = task.id)
    (done : ∀ t ∈ cancelDone, t ∈ s.cancelDone ∨ t ∈ s.cancelPosted) : s.Keeps
      { s with slots := slots, answered := answered, cancelDone := cancelDone, phase := .taking } where
  id := rfl
  held := by
    refine List.Sublist.subperm ?_ |>.trans (held_taking handling).symm.subperm
    exact sublist_cons_self _ _
  slotTasks := same
  reserved := rfl
  posted := rfl
  cancelPosted := rfl
  answered := fun t member => by
    rcases known t member with before | ⟨request, rfl⟩
    · exact Or.inl before
    · exact Or.inr (Or.inr ⟨task, mem_held_handling handling, request, rfl⟩)
  done := done

theorem starts_of_handled (found : s.slots[n]? = some slot)
    (launches : task.type.launches = true) (slots : List ServerSlot) (launched : ServerSlot)
    (answered : List Int) (same : slots.map ServerSlot.idTask = s.slotTasks)
    (id : launched.idTask = task.id) (known : ∀ t ∈ answered, t ∈ s.answered ∨ t = task.id) :
    s.Starts { s with slots := slots.set n launched, answered := answered, phase := .taking }
      task n where
  id := rfl
  held := held_taking handling
  request := by
    cases kind : task.type <;> simp_all [ServerTaskType.launches, ServerTaskType.control]
  slotTasks := by rw [ServerState.slotTasks, map_set, same, id]
  inside := by
    obtain ⟨bound, _⟩ := List.getElem?_eq_some_iff.mp found
    simpa [ServerState.slotTasks] using bound
  reserved := rfl
  posted := rfl
  cancelPosted := rfl
  answered := known
  done := rfl

end

theorem system_release_idTask (task : ServerTask) :
    (if task.systemPrompt then s.slots.map ServerSlot.release else s.slots).map
      ServerSlot.idTask = s.slotTasks := by
  split
  · exact map_idTask_map ServerSlot.release_idTask s.slots
  · rfl

theorem deferred_held (handling : s.phase = .handling task) :
    (ServerState.held { s with queue := s.queue.defer task, phase := .taking }).Perm s.held := by
  rw [hand_handling handling]
  simp only [ServerState.held, LoopPhase.hand, append_nil]
  exact List.Perm.refl _

theorem deferred_keeps (handling : s.phase = .handling task) :
    s.Keeps { s with queue := s.queue.defer task, phase := .taking } :=
  ⟨rfl, (deferred_held handling).subperm, rfl, rfl, rfl, rfl, fun _ => Or.inl, fun _ => Or.inl⟩

theorem answered_keeps (handling : s.phase = .handling task) (request : task.type.control = false) :
    s.Keeps { s.answer task.id with phase := .taking } := by
  refine keeps_of_handled handling s.slots (task.id :: s.answered) s.cancelDone rfl ?_
    fun _ => Or.inl
  intro t member
  rcases mem_cons.mp member with same | before
  · exact Or.inr ⟨request, same⟩
  · exact Or.inl before

theorem cancelled_keeps (ids : s.Ids) (handling : s.phase = .handling task)
    (cancel : task.type = .cancel) : s.Keeps
      { s with
        slots := releaseTask task.idTarget s.slots
        cancelDone := task.idTarget :: s.cancelDone
        phase := .taking } := by
  refine keeps_of_handled handling _ s.answered (task.idTarget :: s.cancelDone)
    (map_idTask_releaseTask task.idTarget s.slots) (fun _ => Or.inl) ?_
  intro t member
  rcases mem_cons.mp member with rfl | before
  · exact Or.inr (ids.heldCancel task (mem_held_handling handling) cancel)
  · exact Or.inl before

theorem ignored_keeps (handling : s.phase = .handling task) : s.Keeps { s with phase := .taking } :=
  keeps_of_handled handling s.slots s.answered s.cancelDone rfl (fun _ => Or.inl) fun _ => Or.inl

theorem launch_starts (handling : s.phase = .handling task) (found : s.slots[n]? = some slot)
    (launches : task.type.launches = true) (launched : ServerSlot) (answered : List Int)
    (id : launched.idTask = task.id) (known : ∀ t ∈ answered, t ∈ s.answered ∨ t = task.id) :
    s.Starts
      { s with
        slots := (if task.systemPrompt then s.slots.map ServerSlot.release else s.slots).set n
          launched
        answered := answered
        phase := .taking } task n :=
  starts_of_handled handling found launches _ launched answered (system_release_idTask task) id known

theorem ServerState.Ids.handle {after : ServerState} (ids : s.Ids)
    (handling : s.phase = .handling task) (handled : Handled threshold s input task after) :
    ServerState.Ids { after with phase := .taking } := by
  cases handled with
  | deferred request => exact ids.keep (deferred_keeps handling)
  | answered request => exact ids.keep (answered_keeps handling request)
  | started n slot found free launches chosen allowed =>
    exact ids.start (launch_starts handling found launches _ s.answered rfl fun _ => Or.inl)
  | failed n slot found free launches chosen allowed =>
    exact ids.start (launch_starts handling found launches _ (task.id :: s.answered) rfl
      fun t member => (mem_cons.mp member).symm)
  | cancelled cancel => exact ids.keep (cancelled_keeps ids handling cancel)
  | ignored response => exact ids.keep (ignored_keeps handling)

theorem handle_step (stepped : step threshold s (.handle input) = some next) :
    ∃ task, s.phase = .handling task ∧ ∃ after, Handled threshold s input task after ∧
      next = { after with phase := .taking } := by
  simp only [step] at stepped
  split at stepped
  · next task handling =>
      exact ⟨task, handling, _, handled_processSingleTask input task,
        (some.inj stepped).symm⟩
  · cases stepped

theorem release_step {now : Int} (stepped : step threshold s (.release now) = some next) :
    ∃ n, s.phase = .releasing n ∧
      ((∃ slot, s.slots[n]? = some slot ∧
          next = { s.releaseSlot now n slot with phase := .releasing (n + 1) }) ∨
        (s.slots[n]? = none ∧ s.slotsIdle = true ∧ next = { s with phase := .waiting }) ∨
        (s.slots[n]? = none ∧ s.slotsIdle = false ∧
          next = { s with queue := s.queue.post { type := .nextResponse }, phase := .working })) := by
  simp only [step] at stepped
  split at stepped
  · next n releasing =>
      refine ⟨n, releasing, ?_⟩
      split at stepped
      · next slot found => exact Or.inl ⟨slot, found, (some.inj stepped).symm⟩
      · next finished =>
          cases idle : s.slotsIdle with
          | true =>
            rw [idle] at stepped
            exact Or.inr (Or.inl ⟨finished, rfl, (some.inj stepped).symm⟩)
          | false =>
            rw [idle] at stepped
            exact Or.inr (Or.inr ⟨finished, rfl, (some.inj stepped).symm⟩)
  · cases stepped

theorem releaseSlot_keeps {now : Int} (releasing : s.phase = .releasing n)
    (found : s.slots[n]? = some slot) :
    s.Keeps { s.releaseSlot now n slot with phase := .releasing (n + 1) } := by
  unfold ServerState.releaseSlot
  split
  · refine ⟨rfl, ?_, map_idTask_set found rfl, rfl, rfl, rfl, fun _ => Or.inl, fun _ => Or.inl⟩
    simp only [ServerState.held, ServerQueue.notifySlotChanged, releasing, LoopPhase.hand,
      append_nil]
    exact (List.Perm.refl _).subperm
  · exact keeps_of_slots s.slots (.releasing (n + 1)) s.answered (by rw [releasing]; rfl) rfl
      fun _ => Or.inl

theorem nextResponse_adds (ids : s.Ids) (releasing : s.phase = .releasing n) :
    s.Adds { s with queue := s.queue.post { type := .nextResponse }, phase := .working }
      { type := .nextResponse, id := s.queue.id } := by
  have same := held_push_back s.queue.queueTasks s.queue.queueTasksDeferred []
    { type := .nextResponse, id := s.queue.id }
  have before : s.held = s.queue.queueTasks ++ (s.queue.queueTasksDeferred ++ []) := by
    rw [ServerState.held, releasing]
    rfl
  exact {
    id := Int.le_add_one (Int.le_refl _), below := Int.lt_succ _, fresh := ids.fresh_next
    held := by rw [before]; exact same.subperm
    waits := fun t _ => by
      rw [ServerState.waits, ServerState.waits, before]
      exact countP_perm_cons same t
    slots := rfl, answered := rfl, reserved := List.Sublist.refl _
    unreserved := fun member => absurd (ids.reservedBelow _ member).2.1 (Int.lt_irrefl _)
    posted := rfl, cancelPosted := rfl, target := fun cancels => by cases cancels
    done := rfl, phase := by rw [releasing]; rfl }

/-- The path calls `release` for a slot that still loads the prompt of a task nobody cancelled. -/
def ServerState.releasesLoading (s : ServerState) : SlotEvent → Bool
  | .promptTooLong n | .imageFailed n | .contextFull n =>
    s.slots[n]?.any fun slot => slot.loading && decide (slot.idTask ∉ s.cancelPosted)
  | _ => false

/-- An event of `update_slots` at one slot, or the release of all of them. -/
inductive Worked (s : ServerState) (event : SlotEvent) : ServerState → Prop
  | atSlot (n : Nat) (slot changed : ServerSlot) (answers : Bool) (found : s.slots[n]? = some slot)
      (busy : slot.isProcessing = true) (same : changed.idTask = slot.idTask)
      (taken : changed.available = false)
      (tidy : (slot.command = .release → slot.state = .idle) →
        changed.command = .release → changed.state = .idle)
      (settled : answers = !changed.isProcessing ∨ slot.idTask ∈ s.cancelPosted ∨
        s.releasesLoading event = true) :
      Worked s event
        { s with
          slots := s.slots.set n changed
          answered := if answers then slot.idTask :: s.answered else s.answered }
  | released (answers : Bool) (settled : answers = true ∨ event = .decodeCancelled) :
      Worked s event
        { s with
          slots := s.slots.map ServerSlot.forceRelease
          answered := if answers then s.slotTasks ++ s.answered else s.answered }

theorem ServerSlot.available_of_busy (busy : slot.isProcessing = true) :
    slot.available = false := by
  cases free : slot.available with
  | false => rfl
  | true => rw [ServerSlot.isProcessing_of_available free] at busy; cases busy

theorem ServerSlot.release_available (busy : slot.isProcessing = true) :
    slot.release.available = false := by
  unfold ServerSlot.release
  split
  · simp [ServerSlot.available]
  · exact ServerSlot.available_of_busy busy

theorem ServerSlot.release_tidy (slot : ServerSlot)
    (tidy : slot.command = .release → slot.state = .idle) :
    slot.release.command = .release → slot.release.state = .idle := by
  unfold ServerSlot.release
  split
  · exact fun _ => rfl
  · exact tidy

@[simp] theorem ServerSlot.forceRelease_available (slot : ServerSlot) :
    slot.forceRelease.available = false := rfl

theorem worked_atSlot {enabled : ServerSlot → Bool} {change : ServerSlot → ServerSlot}
    {answers : Bool} (worked : s.atSlot n enabled change answers = some next)
    (busy : ∀ slot, enabled slot = true → slot.isProcessing = true)
    (same : ∀ slot, (change slot).idTask = slot.idTask)
    (taken : ∀ slot, enabled slot = true → (change slot).available = false)
    (tidy : ∀ slot, (slot.command = .release → slot.state = .idle) → (change slot).command = .release → (change slot).state = .idle)
    (settled : ∀ slot, s.slots[n]? = some slot → enabled slot = true → answers = !(change slot).isProcessing ∨ slot.idTask ∈ s.cancelPosted ∨ s.releasesLoading event = true) :
    Worked s event next := by
  unfold ServerState.atSlot at worked
  split at worked
  · cases worked
  · next slot found =>
      split at worked
      · next allowed =>
          obtain rfl := some.inj worked
          exact .atSlot n slot (change slot) answers found (busy slot allowed) (same slot)
            (taken slot allowed) (tidy slot) (settled slot found allowed)
      · cases worked

theorem work_worked (worked : s.work event = some next) : Worked s event next := by
  have loading : ∀ slot : ServerSlot, slot.loading = true → slot.isProcessing = true :=
    fun slot => ServerSlot.isProcessing_of_loading
  cases event with
  | promptDone n =>
    exact worked_atSlot worked loading ServerSlot.startProcessing_idTask (fun _ _ => rfl)
      (fun _ _ => nofun) fun slot _ _ => Or.inl (by simp [ServerSlot.isProcessing, ServerSlot.startProcessing])
  | promptEmpty n | embeddingTooLong n =>
    exact worked_atSlot worked loading ServerSlot.forceRelease_idTask (fun _ _ => rfl)
      (fun _ _ _ => rfl) fun slot _ _ => Or.inl (by rfl)
  | promptTooLong n | imageFailed n =>
    refine worked_atSlot worked loading ServerSlot.release_idTask
      (fun slot enabled => ServerSlot.release_available (loading slot enabled))
      ServerSlot.release_tidy fun slot found loads => Or.inr ?_
    by_cases cancelled : slot.idTask ∈ s.cancelPosted
    · exact Or.inl cancelled
    · exact Or.inr (by simp [ServerState.releasesLoading, found, loads, cancelled])
  | contextFull n =>
    refine worked_atSlot worked (fun _ enabled => enabled) ServerSlot.release_idTask
      (fun slot enabled => ServerSlot.release_available enabled) ServerSlot.release_tidy
      fun slot found _ => ?_
    rw [ServerSlot.release_isProcessing]
    cases loads : slot.loading with
    | false => exact Or.inl rfl
    | true =>
      by_cases cancelled : slot.idTask ∈ s.cancelPosted
      · exact Or.inr (Or.inl cancelled)
      · exact Or.inr (Or.inr (by simp [ServerState.releasesLoading, found, loads, cancelled]))
  | finished n =>
    have generating : ∀ slot : ServerSlot, decide (slot.state = .processing) = true →
        slot.isProcessing = true := fun slot enabled => by
      rw [ServerSlot.isProcessing, enabled, Bool.or_true]
    refine worked_atSlot worked generating ServerSlot.release_idTask
      (fun slot enabled => ServerSlot.release_available (generating slot enabled))
      ServerSlot.release_tidy fun slot _ enabled => Or.inl ?_
    rw [ServerSlot.release_isProcessing]
    simp [ServerSlot.loading, of_decide_eq_true enabled]
  | decodeFailed =>
    obtain rfl := some.inj worked
    exact .released true (Or.inl rfl)
  | decodeCancelled =>
    obtain rfl := some.inj worked
    exact .released false (Or.inr rfl)

theorem worked_keeps {after : ServerState} (worked : Worked s event after) : s.Keeps after := by
  cases worked with
  | atSlot n slot changed answers found busy same taken tidy settled =>
    refine keeps_of_slots _ s.phase _ rfl (map_idTask_set found same) fun t member => ?_
    cases answers with
    | true =>
      rcases mem_cons.mp member with rfl | before
      · exact Or.inr (mem_map_of_mem (mem_of_getElem? found))
      · exact Or.inl before
    | false => exact Or.inl member
  | released answers =>
    refine keeps_of_slots _ s.phase _ rfl
      (map_idTask_map ServerSlot.forceRelease_idTask s.slots) fun t member => ?_
    cases answers with
    | true => exact (mem_append.mp member).symm
    | false => exact Or.inl member

theorem ServerState.Ids.newId (ids : s.Ids) :
    ServerState.Ids
      { s with queue := { s.queue with id := s.queue.id + 1 }, reserved := s.queue.id :: s.reserved } where
  nonneg := Int.le_add_one ids.nonneg
  heldBelow := fun task member =>
    have below := ids.heldBelow task member
    ⟨below.1, Int.lt_trans below.2 (Int.lt_succ _)⟩
  heldPosted := ids.heldPosted
  heldControl := ids.heldControl
  heldCancel := ids.heldCancel
  slotPosted := ids.slotPosted
  answeredPosted := ids.answeredPosted
  postedBelow := fun t member =>
    have below := ids.postedBelow t member
    ⟨below.1, Int.lt_trans below.2 (Int.lt_succ _)⟩
  reservedBelow := fun t member => by
    rcases mem_cons.mp member with rfl | before
    · exact ⟨ids.nonneg, Int.lt_succ _, ids.fresh_next.unposted, ids.fresh_next.waits⟩
    · obtain ⟨nonneg, below, unposted, free⟩ := ids.reservedBelow t before
      exact ⟨nonneg, Int.lt_trans below (Int.lt_succ _), unposted, free⟩
  reservedNodup := nodup_cons.mpr
    ⟨fun member => absurd (ids.reservedBelow _ member).2.1 (Int.lt_irrefl _), ids.reservedNodup⟩
  cancelled := ids.cancelled
  done := ids.done
  unique := ids.unique

theorem ServerState.Ids.initial (nParallel : Nat) : (ServerState.initial nParallel).Ids where
  nonneg := Int.le_refl 0
  heldBelow := fun task member => by cases member
  heldPosted := fun task member => by cases member
  heldControl := fun task member => by cases member
  heldCancel := fun task member => by cases member
  slotPosted := fun t member => by
    obtain ⟨slot, inside, rfl⟩ := mem_map.mp member
    obtain ⟨id, _, rfl⟩ := mem_map.mp inside
    exact Or.inl rfl
  answeredPosted := fun t member => by cases member
  postedBelow := fun t member => by cases member
  reservedBelow := fun t member => by cases member
  reservedNodup := nodup_nil
  cancelled := fun t member => by cases member
  done := fun t member => by cases member
  unique := fun t nonneg => by
    have none : (ServerState.initial nParallel).slotTasks.count t = 0 := by
      refine count_eq_zero.mpr fun member => ?_
      obtain ⟨slot, inside, same⟩ := mem_map.mp member
      obtain ⟨id, _, rfl⟩ := mem_map.mp inside
      change (-1 : Int) = t at same
      omega
    rw [none]
    exact Nat.le_succ 0

theorem phase_keeps {phase : LoopPhase} (hand : phase.hand = s.phase.hand) :
    s.Keeps { s with phase := phase } :=
  keeps_of_slots s.slots phase s.answered hand rfl fun _ => Or.inl

theorem ServerState.Ids.step {action : Action} (ids : s.Ids)
    (stepped : step threshold s action = some next) : next.Ids := by
  cases action with
  | getNewId =>
    obtain rfl := some.inj stepped
    exact ids.newId
  | post task => exact ids.add (post_adds ids stepped)
  | postAll front tasks =>
    exact postAll_induct ServerState.Ids tasks
      (fun s next task _ ids posted => ids.add (postNext_adds ids posted)) ids stepped
  | take => exact ids.keep (take_keeps stepped)
  | handle input =>
    obtain ⟨task, handling, after, handled, rfl⟩ := handle_step stepped
    exact ids.handle handling handled
  | release now =>
    obtain ⟨n, releasing, ⟨slot, found, rfl⟩ | ⟨_, _, rfl⟩ | ⟨_, _, rfl⟩⟩ := release_step stepped
    · exact ids.keep (releaseSlot_keeps releasing found)
    · exact ids.keep (phase_keeps (by rw [releasing]; rfl))
    · exact ids.add (nextResponse_adds ids releasing)
  | work event =>
    simp only [Tasks.step] at stepped
    split at stepped
    · exact ids.keep (worked_keeps (work_worked stepped))
    · cases stepped
  | workDone =>
    simp only [Tasks.step] at stepped
    split at stepped
    · next working =>
        obtain rfl := some.inj stepped
        exact ids.keep (phase_keeps (by rw [working]; rfl))
    · cases stepped
  | wake =>
    simp only [Tasks.step] at stepped
    split at stepped
    · next waiting =>
        obtain rfl := some.inj stepped
        exact ids.keep (phase_keeps (by rw [waiting.1]; rfl))
    · cases stepped

end Steps

end LlamaCpp.Tasks
