import Mathlib.Data.List.Basic
import Mathlib.Data.Rat.Defs
import LlamaCpp.Lib.Run

/-!
# The task queue and the server loop

`server_queue` with its two queues, the slots as far as tasks are concerned, and the loop of
`start_loop` with `process_single_task` and `update_slots`.  One `step` is one section under
the queue's lock or one action of the loop between two of them, so that a run is any
interleaving of the HTTP threads with the loop.
-/

set_option autoImplicit false

namespace LlamaCpp.Tasks

inductive ServerTaskType
  | completion | embedding | rerank | infill
  | cancel | nextResponse | metrics
  | slotSave | slotRestore | slotErase
  | setLora | loadControlVector | unloadControlVector | setControlVector
deriving DecidableEq

/-- The tasks that `process_single_task` launches on a slot. -/
def ServerTaskType.launches : ServerTaskType → Bool
  | .completion | .embedding | .rerank | .infill => true
  | _ => false

def ServerTaskType.control : ServerTaskType → Bool
  | .cancel | .nextResponse => true
  | _ => false

/-- A `server_task`; `idSlot` and `systemPrompt` are what its data hold under `id_slot` and
`system_prompt`. -/
structure ServerTask where
  id : Int := -1
  type : ServerTaskType
  idTarget : Int := -1
  idSlot : Int := -1
  systemPrompt : Bool := false
deriving DecidableEq

inductive SlotState | idle | processing
deriving DecidableEq

inductive SlotCommand | none | loadPrompt | release
deriving DecidableEq

structure ServerSlot where
  id : Int
  idTask : Int := -1
  state : SlotState := .idle
  command : SlotCommand := .none
  tLastUsed : Int := -1
deriving DecidableEq

def ServerSlot.available (slot : ServerSlot) : Bool :=
  decide (slot.state = .idle ∧ slot.command = .none)

def ServerSlot.loading (slot : ServerSlot) : Bool :=
  decide (slot.state = .idle ∧ slot.command = .loadPrompt)

def ServerSlot.isProcessing (slot : ServerSlot) : Bool :=
  slot.loading || decide (slot.state = .processing)

/-- `server_slot::release`: a slot that is not in `SLOT_STATE_PROCESSING` is left as it is. -/
def ServerSlot.release (slot : ServerSlot) : ServerSlot :=
  if slot.state = .processing then { slot with command := .release, state := .idle } else slot

def ServerSlot.startProcessing (slot : ServerSlot) : ServerSlot :=
  { slot with state := .processing, command := .none }

/-- The slot works on the task `t`. -/
def ServerSlot.worksOn (t : Int) (slot : ServerSlot) : Bool :=
  decide (slot.idTask = t) && slot.isProcessing

/-- `server_queue`; `id` is the next identifier. -/
structure ServerQueue where
  id : Int := 0
  queueTasks : List ServerTask := []
  queueTasksDeferred : List ServerTask := []
deriving DecidableEq

def ServerQueue.assignId (queue : ServerQueue) (task : ServerTask) : ServerTask × ServerQueue :=
  if task.id = -1 then ({ task with id := queue.id }, { queue with id := queue.id + 1 })
  else (task, queue)

def ServerQueue.post (queue : ServerQueue) (task : ServerTask) : ServerQueue :=
  let assigned := queue.assignId task
  { assigned.2 with queueTasks := assigned.2.queueTasks ++ [assigned.1] }

def ServerQueue.cleanupPendingTask (queue : ServerQueue) (idTarget : Int) : ServerQueue :=
  { queue with
    queueTasks := queue.queueTasks.filter fun task => decide (task.id ≠ idTarget)
    queueTasksDeferred := queue.queueTasksDeferred.filter fun task => decide (task.id ≠ idTarget) }

/-- The loop body of `server_queue::post` for several tasks. -/
def ServerQueue.postNext (front : Bool) (queue : ServerQueue) (task : ServerTask) : ServerQueue :=
  let assigned := queue.assignId task
  let cleaned :=
    if task.type = .cancel then assigned.2.cleanupPendingTask task.idTarget else assigned.2
  if front then { cleaned with queueTasks := assigned.1 :: cleaned.queueTasks }
  else { cleaned with queueTasks := cleaned.queueTasks ++ [assigned.1] }

def ServerQueue.defer (queue : ServerQueue) (task : ServerTask) : ServerQueue :=
  { queue with queueTasksDeferred := queue.queueTasksDeferred ++ [task] }

def ServerQueue.notifySlotChanged (queue : ServerQueue) : ServerQueue :=
  { queue with
    queueTasks := queue.queueTasks ++ queue.queueTasksDeferred
    queueTasksDeferred := [] }

def getSlotById (id : Int) (slots : List ServerSlot) : Option Nat :=
  slots.findIdx? fun slot => decide (slot.id = id)

/-- The first loop of `get_available_slot`: the available slot with the best similarity above
the threshold.  A slot without cached tokens has none. -/
def findSimilar (threshold : ℚ) (similarity : Nat → Option ℚ) :
    Nat → ℚ → Option Nat → List ServerSlot → Option Nat
  | _, _, ret, [] => ret
  | n, simBest, ret, slot :: slots =>
    match similarity n with
    | some simCur =>
      if slot.available = true ∧ simBest < simCur ∧ threshold < simCur then
        findSimilar threshold similarity (n + 1) simCur (some n) slots
      else findSimilar threshold similarity (n + 1) simBest ret slots
    | none => findSimilar threshold similarity (n + 1) simBest ret slots

def findLru : Nat → Int → Option Nat → List ServerSlot → Option Nat
  | _, _, ret, [] => ret
  | n, tLast, ret, slot :: slots =>
    if slot.available = true ∧ slot.tLastUsed < tLast then
      findLru (n + 1) slot.tLastUsed (some n) slots
    else findLru (n + 1) tLast ret slots

def getAvailableSlot (threshold : ℚ) (similarity : Nat → Option ℚ) (now : Int)
    (slots : List ServerSlot) : Option Nat :=
  let similar := if threshold ≠ 0 then findSimilar threshold similarity 0 0 none slots else none
  if similar.isSome then similar else findLru 0 now none slots

/-- Where the loop is between two sections under the lock: it takes tasks, has one in hand, is
at a slot of `release_slots`, has posted its `NEXT_RESPONSE` or waits for a new task. -/
inductive LoopPhase
  | taking
  | handling (task : ServerTask)
  | releasing (n : Nat)
  | working
  | waiting
deriving DecidableEq

def LoopPhase.hand : LoopPhase → List ServerTask
  | .handling task => [task]
  | _ => []

/-- The server, the identifiers it sent a final result for, and the history: identifiers
taken by `get_new_id` and not posted yet, posted tasks, tasks whose `CANCEL` was posted and
those whose `CANCEL` the loop has processed. -/
structure ServerState where
  queue : ServerQueue := {}
  slots : List ServerSlot
  phase : LoopPhase := .taking
  answered : List Int := []
  reserved : List Int := []
  posted : List Int := []
  cancelPosted : List Int := []
  cancelDone : List Int := []
deriving DecidableEq

/-- The server after `init`, with the slots of `n_parallel`. -/
def ServerState.initial (nParallel : Nat) : ServerState :=
  { slots := (List.range nParallel).map fun (id : Nat) => { id := id } }

/-- A client posts a request under no identifier or one it took before, or the `CANCEL` of a
request it posted. -/
def ServerState.postable (s : ServerState) (task : ServerTask) : Bool :=
  match task.type with
  | .nextResponse => false
  | .cancel => decide (task.id = -1 ∧ task.idTarget ∈ s.posted)
  | _ => decide (task.id = -1 ∨ task.id ∈ s.reserved)

def ServerState.notePost (s : ServerState) (task : ServerTask) : ServerState :=
  if task.type = .cancel then { s with cancelPosted := task.idTarget :: s.cancelPosted }
  else
    { s with
      posted := (s.queue.assignId task).1.id :: s.posted
      reserved := s.reserved.erase task.id }

def ServerState.post (s : ServerState) (task : ServerTask) : Option ServerState :=
  if s.postable task then some { s.notePost task with queue := s.queue.post task } else none

def ServerState.postNext (front : Bool) (s : ServerState) (task : ServerTask) :
    Option ServerState :=
  if s.postable task then some { s.notePost task with queue := s.queue.postNext front task }
  else none

def ServerState.postAll (front : Bool) : ServerState → List ServerTask → Option ServerState
  | s, [] => some s
  | s, task :: tasks => (s.postNext front task).bind fun s => s.postAll front tasks

/-- What `process_single_task` meets: the clock, the similarity of the slots' cached prompts to
the task's, whether `launch_slot_with_task` succeeds and `system_prompt_set` allows the prompt. -/
structure HandleInput where
  now : Int
  similarity : Nat → Option ℚ := fun _ => none
  launched : Bool := true
  promptAllowed : Bool := true

def ServerState.answer (s : ServerState) (id : Int) : ServerState :=
  { s with answered := id :: s.answered }

def ServerState.startTask (s : ServerState) (input : HandleInput) (task : ServerTask) (n : Nat)
    (slot : ServerSlot) : ServerState :=
  if task.systemPrompt = true ∧ input.promptAllowed = false then s.answer task.id
  else
    let slots := if task.systemPrompt then s.slots.map ServerSlot.release else s.slots
    if input.launched then
      { s with slots := slots.set n { slot with idTask := task.id, command := .loadPrompt } }
    else { s.answer task.id with slots := slots.set n { slot with idTask := task.id } }

/-- The cases `COMPLETION`, `INFILL`, `EMBEDDING` and `RERANK`. -/
def ServerState.processLaunch (threshold : ℚ) (s : ServerState) (input : HandleInput)
    (task : ServerTask) : ServerState :=
  let chosen :=
    if task.idSlot ≠ -1 then getSlotById task.idSlot s.slots
    else getAvailableSlot threshold input.similarity input.now s.slots
  match chosen.bind fun n => s.slots[n]?.map fun slot => (n, slot) with
  | none => { s with queue := s.queue.defer task }
  | some (n, slot) =>
    if slot.available then s.startTask input task n slot
    else { s with queue := s.queue.defer task }

/-- The cases `SLOT_SAVE`, `SLOT_RESTORE` and `SLOT_ERASE`, which answer the task on every other
path. -/
def ServerState.processSlotAction (s : ServerState) (task : ServerTask) : ServerState :=
  match (getSlotById task.idSlot s.slots).bind fun n => s.slots[n]? with
  | none => s.answer task.id
  | some slot =>
    if slot.available then s.answer task.id else { s with queue := s.queue.defer task }

def releaseTask (idTarget : Int) : List ServerSlot → List ServerSlot
  | [] => []
  | slot :: slots =>
    if slot.idTask = idTarget then slot.release :: slots else slot :: releaseTask idTarget slots

def ServerState.processSingleTask (threshold : ℚ) (s : ServerState) (input : HandleInput)
    (task : ServerTask) : ServerState :=
  match task.type with
  | .completion | .infill | .embedding | .rerank => s.processLaunch threshold input task
  | .cancel =>
    { s with
      slots := releaseTask task.idTarget s.slots
      cancelDone := task.idTarget :: s.cancelDone }
  | .nextResponse => s
  | .slotSave | .slotRestore | .slotErase => s.processSlotAction task
  | _ => s.answer task.id

def ServerState.releaseSlot (s : ServerState) (now : Int) (n : Nat) (slot : ServerSlot) :
    ServerState :=
  if slot.command = .release then
    { s with
      slots := s.slots.set n { slot with state := .idle, command := .none, tLastUsed := now }
      queue := s.queue.notifySlotChanged }
  else s

def ServerState.slotsIdle (s : ServerState) : Bool := s.slots.all ServerSlot.available

/-- What the rest of `update_slots` does to the slots, path by path: the prompt in the batch
whole, empty, too long for the context or for an embedding, or with an image that fails; the
context full without context shift; the last token, an embedding, a sampling or a restore
error; a failed decode and a cancelled one. -/
inductive SlotEvent
  | promptDone (n : Nat)
  | promptEmpty (n : Nat)
  | promptTooLong (n : Nat)
  | embeddingTooLong (n : Nat)
  | imageFailed (n : Nat)
  | contextFull (n : Nat)
  | finished (n : Nat)
  | decodeFailed
  | decodeCancelled
deriving DecidableEq

/-- An event at slot `n`, if the slot is where the path needs it. -/
def ServerState.atSlot (s : ServerState) (n : Nat) (enabled : ServerSlot → Bool)
    (change : ServerSlot → ServerSlot) (answers : Bool) : Option ServerState :=
  match s.slots[n]? with
  | none => none
  | some slot =>
    if enabled slot then
      some
        { s with
          slots := s.slots.set n (change slot)
          answered := if answers then slot.idTask :: s.answered else s.answered }
    else none

/-- The slot is set to `SLOT_STATE_PROCESSING` for its release to take effect. -/
def ServerSlot.forceRelease (slot : ServerSlot) : ServerSlot := slot.startProcessing.release

def ServerState.work (s : ServerState) : SlotEvent → Option ServerState
  | .promptDone n => s.atSlot n ServerSlot.loading ServerSlot.startProcessing false
  | .promptEmpty n => s.atSlot n ServerSlot.loading ServerSlot.forceRelease true
  | .promptTooLong n => s.atSlot n ServerSlot.loading ServerSlot.release true
  | .embeddingTooLong n => s.atSlot n ServerSlot.loading ServerSlot.forceRelease true
  | .imageFailed n => s.atSlot n ServerSlot.loading ServerSlot.release true
  | .contextFull n => s.atSlot n ServerSlot.isProcessing ServerSlot.release true
  | .finished n =>
    s.atSlot n (fun slot => decide (slot.state = .processing)) ServerSlot.release true
  | .decodeFailed =>
    some
      { s with
        slots := s.slots.map ServerSlot.forceRelease
        answered := s.slots.map ServerSlot.idTask ++ s.answered }
  | .decodeCancelled => some { s with slots := s.slots.map ServerSlot.forceRelease }

inductive Action
  | getNewId
  | post (task : ServerTask)
  | postAll (front : Bool) (tasks : List ServerTask)
  | take
  | handle (input : HandleInput)
  | release (now : Int)
  | work (event : SlotEvent)
  | workDone
  | wake

def step (threshold : ℚ) (s : ServerState) : Action → Option ServerState
  | .getNewId =>
    some { s with queue := { s.queue with id := s.queue.id + 1 }, reserved := s.queue.id :: s.reserved }
  | .post task => s.post task
  | .postAll front tasks => s.postAll front tasks
  | .take =>
    if s.phase = .taking then
      match s.queue.queueTasks with
      | [] => some { s with phase := .releasing 0 }
      | task :: tasks =>
        some { s with queue := { s.queue with queueTasks := tasks }, phase := .handling task }
    else none
  | .handle input =>
    match s.phase with
    | .handling task =>
      some { s.processSingleTask threshold input task with phase := .taking }
    | _ => none
  | .release now =>
    match s.phase with
    | .releasing n =>
      match s.slots[n]? with
      | some slot => some { s.releaseSlot now n slot with phase := .releasing (n + 1) }
      | none =>
        if s.slotsIdle then some { s with phase := .waiting }
        else some { s with queue := s.queue.post { type := .nextResponse }, phase := .working }
    | _ => none
  | .work event => if s.phase = .working then s.work event else none
  | .workDone => if s.phase = .working then some { s with phase := .waiting } else none
  | .wake =>
    if s.phase = .waiting ∧ s.queue.queueTasks ≠ [] then some { s with phase := .taking } else none

def ServerState.blocked (s : ServerState) : Prop := s.phase = .waiting ∧ s.queue.queueTasks = []

instance (s : ServerState) : Decidable s.blocked :=
  inferInstanceAs (Decidable (s.phase = .waiting ∧ s.queue.queueTasks = []))

end LlamaCpp.Tasks
