import LlamaCpp.Server.TaskQueue
import Mathlib.Data.List.Perm.Subperm

/-!
# Identifiers of tasks

A task waits in a queue or in the loop's hand, or a slot has its identifier: never twice.  The
facts hold in every run, whatever the clients post and cancel.
-/

set_option autoImplicit false

namespace LlamaCpp.Tasks

open List

section

variable (slot : ServerSlot)
include slot

@[simp] theorem ServerSlot.release_idTask : slot.release.idTask = slot.idTask := by
  unfold ServerSlot.release
  split <;> rfl

@[simp] theorem ServerSlot.startProcessing_idTask :
    slot.startProcessing.idTask = slot.idTask := rfl

@[simp] theorem ServerSlot.forceRelease_idTask :
    slot.forceRelease.idTask = slot.idTask := by
  rw [ServerSlot.forceRelease, ServerSlot.release_idTask, ServerSlot.startProcessing_idTask]

theorem ServerSlot.release_isProcessing :
    slot.release.isProcessing = slot.loading := by
  unfold ServerSlot.release
  split
  · next generating =>
      simp [ServerSlot.isProcessing, ServerSlot.loading, generating]
  · next idle =>
      simp [ServerSlot.isProcessing, idle]

end

variable {slot : ServerSlot} {t : Int} {slots : List ServerSlot} {n m : Nat} {s : ServerState}
  {task : ServerTask} {next : ServerState}

theorem ServerSlot.isProcessing_of_loading (loading : slot.loading = true) :
    slot.isProcessing = true := by
  rw [ServerSlot.isProcessing, loading, Bool.true_or]

theorem ServerSlot.isProcessing_of_available (free : slot.available = true) :
    slot.isProcessing = false := by
  obtain ⟨idle, none⟩ := of_decide_eq_true free
  simp [ServerSlot.isProcessing, ServerSlot.loading, idle, none]

theorem ServerSlot.worksOn_iff :
    slot.worksOn t = true ↔ slot.idTask = t ∧ slot.isProcessing = true := by
  rw [ServerSlot.worksOn, Bool.and_eq_true, decide_eq_true_eq]

theorem ServerSlot.worksOn_eq_false :
    slot.worksOn t = false ↔ (slot.idTask = t → slot.isProcessing = false) := by
  simp [ServerSlot.worksOn]

def ServerState.slotTasks (s : ServerState) : List Int := s.slots.map ServerSlot.idTask

theorem map_idTask_set {changed : ServerSlot} (found : slots[n]? = some slot)
    (same : changed.idTask = slot.idTask) :
    (slots.set n changed).map ServerSlot.idTask = slots.map ServerSlot.idTask := by
  have old : (slots.map ServerSlot.idTask)[n]? = some changed.idTask := by
    rw [List.getElem?_map, found, Option.map_some, same]
  obtain ⟨bound, place⟩ := List.getElem?_eq_some_iff.mp old
  rw [map_set, ← place, set_getElem_self]

theorem map_idTask_map {change : ServerSlot → ServerSlot}
    (same : ∀ slot, (change slot).idTask = slot.idTask) (slots : List ServerSlot) :
    (slots.map change).map ServerSlot.idTask = slots.map ServerSlot.idTask := by
  rw [map_map]
  exact map_congr_left fun slot _ => same slot

theorem map_idTask_releaseTask (idTarget : Int) (slots : List ServerSlot) :
    (releaseTask idTarget slots).map ServerSlot.idTask = slots.map ServerSlot.idTask := by
  induction slots with
  | nil => rfl
  | cons slot slots ih =>
    unfold releaseTask
    split
    · rw [map_cons, map_cons, ServerSlot.release_idTask]
    · rw [map_cons, map_cons, ih]

theorem getSlotById_some {id : Int} (chosen : getSlotById id slots = some n) :
    ∃ slot, slots[n]? = some slot ∧ slot.id = id := by
  obtain ⟨bound, holds, _⟩ := List.findIdx?_eq_some_iff_getElem.mp chosen
  exact ⟨slots[n], List.getElem?_eq_getElem bound, of_decide_eq_true holds⟩

theorem findSimilar_some {threshold : ℚ} {similarity : Nat → Option ℚ} {simBest : ℚ}
    {ret : Option Nat} (chosen : findSimilar threshold similarity n simBest ret slots = some m) :
    ret = some m ∨ ∃ j slot, m = n + j ∧ slots[j]? = some slot ∧ slot.available = true := by
  fun_induction findSimilar threshold similarity n simBest ret slots with
  | case1 => exact Or.inl chosen
  | case2 n simBest ret slot slots simCur _ better ih =>
    rcases ih chosen with here | ⟨j, other, place, found, free⟩
    · exact Or.inr ⟨0, slot, (Option.some.inj here).symm, rfl, better.1⟩
    · exact Or.inr ⟨j + 1, other, by omega, found, free⟩
  | case3 n simBest ret slot slots simCur _ _ ih =>
    rcases ih chosen with before | ⟨j, other, place, found, free⟩
    · exact Or.inl before
    · exact Or.inr ⟨j + 1, other, by omega, found, free⟩
  | case4 n simBest ret slot slots _ ih =>
    rcases ih chosen with before | ⟨j, other, place, found, free⟩
    · exact Or.inl before
    · exact Or.inr ⟨j + 1, other, by omega, found, free⟩

theorem findLru_some {tLast : Int} {ret : Option Nat}
    (chosen : findLru n tLast ret slots = some m) :
    ret = some m ∨ ∃ j slot, m = n + j ∧ slots[j]? = some slot ∧ slot.available = true := by
  fun_induction findLru n tLast ret slots with
  | case1 => exact Or.inl chosen
  | case2 n tLast ret slot slots older ih =>
    rcases ih chosen with here | ⟨j, other, place, found, free⟩
    · exact Or.inr ⟨0, slot, (Option.some.inj here).symm, rfl, older.1⟩
    · exact Or.inr ⟨j + 1, other, by omega, found, free⟩
  | case3 n tLast ret slot slots _ ih =>
    rcases ih chosen with before | ⟨j, other, place, found, free⟩
    · exact Or.inl before
    · exact Or.inr ⟨j + 1, other, by omega, found, free⟩

theorem getAvailableSlot_some {threshold : ℚ} {similarity : Nat → Option ℚ} {now : Int}
    (chosen : getAvailableSlot threshold similarity now slots = some m) :
    ∃ slot, slots[m]? = some slot ∧ slot.available = true := by
  have place : ∀ {ret : Option Nat}, ret = none →
      (ret = some m ∨ ∃ j slot, m = 0 + j ∧ slots[j]? = some slot ∧ slot.available = true) →
      ∃ slot, slots[m]? = some slot ∧ slot.available = true := by
    intro ret nothing found
    rcases found with some | ⟨j, slot, place, found, free⟩
    · rw [nothing] at some
      cases some
    · rw [place, Nat.zero_add]
      exact ⟨slot, found, free⟩
  have lru := fun (chosen : findLru 0 now none slots = some m) => place rfl (findLru_some chosen)
  by_cases off : threshold ≠ 0
  · simp only [getAvailableSlot, if_pos off] at chosen
    split at chosen
    · exact place rfl (findSimilar_some chosen)
    · exact lru chosen
  · simp only [getAvailableSlot, if_neg off] at chosen
    exact lru chosen

def ServerState.held (s : ServerState) : List ServerTask :=
  s.queue.queueTasks ++ (s.queue.queueTasksDeferred ++ s.phase.hand)

/-- How often the task `t` waits. -/
def ServerState.waits (s : ServerState) (t : Int) : Nat :=
  s.held.countP fun task => decide (task.id = t)

theorem ServerState.waits_pos (member : task ∈ s.held) : 1 ≤ s.waits task.id :=
  countP_pos_iff.mpr ⟨task, member, decide_eq_true rfl⟩

theorem waits_le (fewer : next.held.Subperm s.held) (t : Int) :
    next.waits t ≤ s.waits t := fewer.countP_le _

structure ServerState.Ids (s : ServerState) : Prop where
  nonneg : 0 ≤ s.queue.id
  heldBelow : ∀ task ∈ s.held, 0 ≤ task.id ∧ task.id < s.queue.id
  heldPosted : ∀ task ∈ s.held, task.type.control = false → task.id ∈ s.posted
  heldControl : ∀ task ∈ s.held, task.type.control = true → task.id ∉ s.posted
  heldCancel : ∀ task ∈ s.held, task.type = .cancel → task.idTarget ∈ s.cancelPosted
  slotPosted : ∀ t ∈ s.slotTasks, t = -1 ∨ t ∈ s.posted
  answeredPosted : ∀ t ∈ s.answered, t = -1 ∨ t ∈ s.posted
  postedBelow : ∀ t ∈ s.posted, 0 ≤ t ∧ t < s.queue.id
  reservedBelow : ∀ t ∈ s.reserved, 0 ≤ t ∧ t < s.queue.id ∧ t ∉ s.posted ∧ s.waits t = 0
  reservedNodup : s.reserved.Nodup
  cancelled : ∀ t ∈ s.cancelPosted, t ∈ s.posted
  done : ∀ t ∈ s.cancelDone, t ∈ s.cancelPosted
  unique : ∀ t, 0 ≤ t → s.waits t + s.slotTasks.count t ≤ 1

/-- The identifier `t` belongs to no task yet. -/
structure ServerState.Fresh (s : ServerState) (t : Int) : Prop where
  nonneg : 0 ≤ t
  waits : s.waits t = 0
  unposted : t ∉ s.posted

theorem ServerState.Ids.count_slotTasks (ids : s.Ids) (nonneg : 0 ≤ t) (unposted : t ∉ s.posted) :
    s.slotTasks.count t = 0 := by
  refine count_eq_zero.mpr fun member => ?_
  rcases ids.slotPosted t member with none | posted
  · omega
  · exact unposted posted

theorem ServerState.Ids.fresh_next (ids : s.Ids) : s.Fresh s.queue.id where
  nonneg := ids.nonneg
  waits := by
    refine countP_eq_zero.mpr fun task member => ?_
    have below := (ids.heldBelow task member).2
    exact Bool.eq_false_iff.mp (decide_eq_false (by omega))
  unposted := fun posted => absurd (ids.postedBelow _ posted).2 (Int.lt_irrefl _)

structure ServerState.Keeps (s next : ServerState) : Prop where
  id : next.queue.id = s.queue.id
  held : next.held.Subperm s.held
  slotTasks : next.slotTasks = s.slotTasks
  reserved : next.reserved = s.reserved
  posted : next.posted = s.posted
  cancelPosted : next.cancelPosted = s.cancelPosted
  answered : ∀ t ∈ next.answered, t ∈ s.answered ∨ t ∈ s.slotTasks ∨
    ∃ task ∈ s.held, task.type.control = false ∧ task.id = t
  done : ∀ t ∈ next.cancelDone, t ∈ s.cancelDone ∨ t ∈ s.cancelPosted

theorem ServerState.Ids.keep (ids : s.Ids) (keeps : s.Keeps next) : next.Ids where
  nonneg := by rw [keeps.id]; exact ids.nonneg
  heldBelow := fun task member => by
    rw [keeps.id]
    exact ids.heldBelow task (keeps.held.subset member)
  heldPosted := fun task member => by
    rw [keeps.posted]
    exact ids.heldPosted task (keeps.held.subset member)
  heldControl := fun task member => by
    rw [keeps.posted]
    exact ids.heldControl task (keeps.held.subset member)
  heldCancel := fun task member => by
    rw [keeps.cancelPosted]
    exact ids.heldCancel task (keeps.held.subset member)
  slotPosted := by rw [keeps.slotTasks, keeps.posted]; exact ids.slotPosted
  answeredPosted := fun t answered => by
    rw [keeps.posted]
    rcases keeps.answered t answered with before | slot | ⟨task, member, request, rfl⟩
    · exact ids.answeredPosted t before
    · exact ids.slotPosted t slot
    · exact Or.inr (ids.heldPosted task member request)
  postedBelow := by rw [keeps.posted, keeps.id]; exact ids.postedBelow
  reservedBelow := fun t reserved => by
    rw [keeps.reserved] at reserved
    obtain ⟨nonneg, below, unposted, free⟩ := ids.reservedBelow t reserved
    rw [keeps.posted, keeps.id]
    exact ⟨nonneg, below, unposted, Nat.le_zero.mp (free ▸ waits_le keeps.held t)⟩
  reservedNodup := by rw [keeps.reserved]; exact ids.reservedNodup
  cancelled := by rw [keeps.cancelPosted, keeps.posted]; exact ids.cancelled
  done := fun t done => by
    rw [keeps.cancelPosted]
    rcases keeps.done t done with before | cancelled
    · exact ids.done t before
    · exact cancelled
  unique := fun t nonneg => by
    rw [keeps.slotTasks]
    exact Nat.le_trans (Nat.add_le_add_right (waits_le keeps.held t) _) (ids.unique t nonneg)

structure ServerState.Adds (s next : ServerState) (task : ServerTask) : Prop where
  id : s.queue.id ≤ next.queue.id
  below : task.id < next.queue.id
  fresh : s.Fresh task.id
  held : next.held.Subperm (task :: s.held)
  waits : ∀ t, (task.type = .cancel → t ≠ task.idTarget) →
    next.waits t = s.waits t + if task.id = t then 1 else 0
  slots : next.slots = s.slots
  answered : next.answered = s.answered
  reserved : next.reserved.Sublist s.reserved
  unreserved : task.id ∉ next.reserved
  posted : next.posted = if task.type.control then s.posted else task.id :: s.posted
  cancelPosted : next.cancelPosted =
    if task.type = .cancel then task.idTarget :: s.cancelPosted else s.cancelPosted
  target : task.type = .cancel → task.idTarget ∈ s.posted
  done : next.cancelDone = s.cancelDone
  phase : next.phase.hand = s.phase.hand

theorem ServerState.Adds.mem_posted (adds : s.Adds next task) :
    t ∈ next.posted ↔ t ∈ s.posted ∨ task.type.control = false ∧ t = task.id := by
  rw [adds.posted]
  cases task.type.control <;> simp [or_comm]

theorem ServerState.Adds.mem_cancelPosted (adds : s.Adds next task) :
    t ∈ next.cancelPosted ↔ t ∈ s.cancelPosted ∨ task.type = .cancel ∧ t = task.idTarget := by
  rw [adds.cancelPosted]
  split
  · next cancel => simp [cancel, or_comm]
  · next other => simp [other]

theorem ServerState.Adds.waits_le (adds : s.Adds next task) (t : Int) :
    next.waits t ≤ s.waits t + if task.id = t then 1 else 0 := by
  have fewer := adds.held.countP_le fun other => decide (other.id = t)
  rw [countP_cons] at fewer
  simpa only [ServerState.waits, decide_eq_true_eq] using fewer

theorem ServerState.Ids.add (ids : s.Ids) (adds : s.Adds next task) : next.Ids where
  nonneg := Int.le_trans ids.nonneg adds.id
  heldBelow := fun other member => by
    rcases mem_cons.mp (adds.held.subset member) with rfl | before
    · exact ⟨adds.fresh.nonneg, adds.below⟩
    · have below := ids.heldBelow other before
      exact ⟨below.1, Int.lt_of_lt_of_le below.2 adds.id⟩
  heldPosted := fun other member request => by
    rw [adds.mem_posted]
    rcases mem_cons.mp (adds.held.subset member) with rfl | before
    · exact Or.inr ⟨request, rfl⟩
    · exact Or.inl (ids.heldPosted other before request)
  heldControl := fun other member control posted => by
    rcases mem_cons.mp (adds.held.subset member) with rfl | before
    · rcases adds.mem_posted.mp posted with known | ⟨request, _⟩
      · exact adds.fresh.unposted known
      · rw [control] at request
        cases request
    · rcases adds.mem_posted.mp posted with known | ⟨_, same⟩
      · exact ids.heldControl other before control known
      · have waits := ServerState.waits_pos before
        rw [same, adds.fresh.waits] at waits
        cases waits
  heldCancel := fun other member cancel => by
    rw [adds.mem_cancelPosted]
    rcases mem_cons.mp (adds.held.subset member) with rfl | before
    · exact Or.inr ⟨cancel, rfl⟩
    · exact Or.inl (ids.heldCancel other before cancel)
  slotPosted := fun t member => by
    rw [adds.mem_posted]
    rw [ServerState.slotTasks, adds.slots] at member
    exact (ids.slotPosted t member).imp_right Or.inl
  answeredPosted := fun t member => by
    rw [adds.mem_posted]
    rw [adds.answered] at member
    exact (ids.answeredPosted t member).imp_right Or.inl
  postedBelow := fun t member => by
    rcases adds.mem_posted.mp member with before | ⟨_, rfl⟩
    · have below := ids.postedBelow t before
      exact ⟨below.1, Int.lt_of_lt_of_le below.2 adds.id⟩
    · exact ⟨adds.fresh.nonneg, adds.below⟩
  reservedBelow := fun t member => by
    obtain ⟨nonneg, below, unposted, free⟩ := ids.reservedBelow t (adds.reserved.subset member)
    have other : task.id ≠ t := fun same => adds.unreserved (same ▸ member)
    refine ⟨nonneg, Int.lt_of_lt_of_le below adds.id, ?_, ?_⟩
    · intro posted
      rcases adds.mem_posted.mp posted with before | ⟨_, same⟩
      · exact unposted before
      · exact other same.symm
    · have few := adds.waits_le t
      rw [free, if_neg other] at few
      exact Nat.le_zero.mp few
  reservedNodup := ids.reservedNodup.sublist adds.reserved
  cancelled := fun t member => by
    rw [adds.mem_posted]
    rcases adds.mem_cancelPosted.mp member with before | ⟨cancel, rfl⟩
    · exact Or.inl (ids.cancelled t before)
    · exact Or.inl (adds.target cancel)
  done := fun t member => by
    rw [adds.done] at member
    exact adds.mem_cancelPosted.mpr (Or.inl (ids.done t member))
  unique := fun t nonneg => by
    have few := adds.waits_le t
    have once := ids.unique t nonneg
    rw [ServerState.slotTasks, adds.slots]
    change next.waits t + s.slotTasks.count t ≤ 1
    by_cases same : task.id = t
    · have none := ids.count_slotTasks nonneg (same ▸ adds.fresh.unposted)
      have free := adds.fresh.waits
      rw [same] at free
      rw [if_pos same] at few
      omega
    · rw [if_neg same] at few
      omega

/-- The task leaves the loop's hand for the slot at `n`. -/
structure ServerState.Starts (s next : ServerState) (task : ServerTask) (n : Nat) : Prop where
  id : next.queue.id = s.queue.id
  held : s.held.Perm (task :: next.held)
  request : task.type.control = false
  slotTasks : next.slotTasks = s.slotTasks.set n task.id
  inside : n < s.slotTasks.length
  reserved : next.reserved = s.reserved
  posted : next.posted = s.posted
  cancelPosted : next.cancelPosted = s.cancelPosted
  answered : ∀ t ∈ next.answered, t ∈ s.answered ∨ t = task.id
  done : next.cancelDone = s.cancelDone

theorem ServerState.Starts.waits (starts : s.Starts next task n) (t : Int) :
    s.waits t = next.waits t + if task.id = t then 1 else 0 := by
  have same := starts.held.countP_eq fun other => decide (other.id = t)
  rw [countP_cons] at same
  simpa only [ServerState.waits, decide_eq_true_eq] using same

theorem ServerState.Ids.start (ids : s.Ids) (starts : s.Starts next task n) : next.Ids where
  nonneg := by rw [starts.id]; exact ids.nonneg
  heldBelow := fun other member => by
    rw [starts.id]
    exact ids.heldBelow other (starts.held.symm.subset (mem_cons_of_mem task member))
  heldPosted := fun other member => by
    rw [starts.posted]
    exact ids.heldPosted other (starts.held.symm.subset (mem_cons_of_mem task member))
  heldControl := fun other member => by
    rw [starts.posted]
    exact ids.heldControl other (starts.held.symm.subset (mem_cons_of_mem task member))
  heldCancel := fun other member => by
    rw [starts.cancelPosted]
    exact ids.heldCancel other (starts.held.symm.subset (mem_cons_of_mem task member))
  slotPosted := fun t member => by
    rw [starts.posted]
    rw [starts.slotTasks] at member
    rcases mem_or_eq_of_mem_set member with before | rfl
    · exact ids.slotPosted t before
    · exact Or.inr (ids.heldPosted task (starts.held.symm.subset mem_cons_self) starts.request)
  answeredPosted := fun t member => by
    rw [starts.posted]
    rcases starts.answered t member with before | rfl
    · exact ids.answeredPosted t before
    · exact Or.inr (ids.heldPosted task (starts.held.symm.subset mem_cons_self) starts.request)
  postedBelow := by rw [starts.posted, starts.id]; exact ids.postedBelow
  reservedBelow := fun t member => by
    rw [starts.reserved] at member
    obtain ⟨nonneg, below, unposted, free⟩ := ids.reservedBelow t member
    have before := starts.waits t
    rw [starts.posted, starts.id]
    exact ⟨nonneg, below, unposted, by omega⟩
  reservedNodup := by rw [starts.reserved]; exact ids.reservedNodup
  cancelled := by rw [starts.cancelPosted, starts.posted]; exact ids.cancelled
  done := by rw [starts.done, starts.cancelPosted]; exact ids.done
  unique := fun t nonneg => by
    have once := ids.unique t nonneg
    have before := starts.waits t
    rw [starts.slotTasks, count_set starts.inside]
    simp only [beq_iff_eq]
    by_cases same : task.id = t
    · omega
    · omega

end LlamaCpp.Tasks
