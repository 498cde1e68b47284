import LlamaCpp.Dsv4.PlanRuns

/-!
# Per-step checkpoints of the compressor state

Before a batch of draft tokens the state rings are copied, and after it the row each token
left in the rings is captured.  A restore puts the copy back and then the rows of the
accepted tokens only.
-/

set_option autoImplicit false

namespace LlamaCpp.Dsv4

open LlamaCpp.Lib

variable {Row : Type*}

def perStepMaxStateRows : Nat := 8

/-- The six vectors of state tensors, in the order of `dsv4_state_tensors`. -/
inductive StateGroup
  | csaKv | csaScore | hcaKv | hcaScore | lidKv | lidScore
deriving DecidableEq, Repr

namespace StateGroup

def all : List StateGroup := [csaKv, csaScore, hcaKv, hcaScore, lidKv, lidScore]

def ratio : StateGroup → Nat
  | csaKv | csaScore | lidKv | lidScore => csaRatio
  | hcaKv | hcaScore => hcaRatio

end StateGroup

abbrev StateTensor := StateGroup × Nat

/-- What `ensure_dsv4_cache_tensors` reads.  A model without a layer of one kind never gets
to a plan: its ring of that kind has no rows to divide a position by. -/
structure CompModel where
  compressRatios : List Nat
  nCtx : Nat
  nSeqMax : Nat
  hasCsa : csaRatio ∈ compressRatios
  hasHca : hcaRatio ∈ compressRatios

def compSize (kvSize ratio : Nat) : Nat := max 1 ((kvSize + ratio - 1) / ratio)

namespace CompModel

variable (model : CompModel)

def nStream : Nat := max 1 model.nSeqMax

def csaShape : CompShape :=
  ⟨csaRatio, true, 2 * csaRatio, Kv.ggmlPad (compSize model.nCtx csaRatio) 256, model.nStream⟩

def hcaShape : CompShape :=
  ⟨hcaRatio, false, hcaRatio, Kv.ggmlPad (compSize model.nCtx hcaRatio) 256, model.nStream⟩

/-- `lid_k` and its states have the sizes of the CSA tensors. -/
def lidShape : CompShape := model.csaShape

def shape : StateGroup → CompShape
  | .csaKv | .csaScore => model.csaShape
  | .hcaKv | .hcaScore => model.hcaShape
  | .lidKv | .lidScore => model.lidShape

/-- A vector of `dsv4.cache`: a tensor for the layers of its ratio, null for the others. -/
def cacheStates (group : StateGroup) : List (Option StateTensor) :=
  model.compressRatios.zipIdx.map fun layer =>
    if layer.1 = group.ratio then some (group, layer.2) else none

/-- The lambda `compact`: the tensors that are not null. -/
def compact (group : StateGroup) : List StateTensor := (model.cacheStates group).filterMap id

def stateTensors : List StateTensor := StateGroup.all.flatMap model.compact

/-- `state->ne[1]`. -/
def stateRows (tensor : StateTensor) : Int := (model.shape tensor.1).stateRows

def decodeRings (rings : StateTensor → Int → Row) (batch : Batch)
    (rows : StateTensor → Nat → Row) : StateTensor → Int → Row :=
  fun tensor =>
    if tensor ∈ model.stateTensors then
      scatter (rings tensor) ((model.shape tensor.1).stateWrites ⟨batch, rows tensor⟩)
    else rings tensor

end CompModel

structure DeltaIdxs where
  src : List Nat := []
  dst : List Int := []

def CompPlan.deltaIdxs (plan : CompPlan) : DeltaIdxs :=
  ⟨plan.stateDeltaSrcIdxs, plan.stateDeltaDstIdxs⟩

/-- The per-step part of `gpu_checkpoint`, as `dsv4_per_step_alloc` leaves it: a shadow and
`maxTokens` delta rows for each state tensor. -/
structure PerStepCkpt (Row : Type*) where
  maxTokens : Nat
  supported : 0 < maxTokens ∧ maxTokens ≤ perStepMaxStateRows
  stateShadow : Nat → Int → Row
  delta : Nat → Nat → Row
  saved : Bool := false
  csa : DeltaIdxs := {}
  hca : DeltaIdxs := {}
  lid : DeltaIdxs := {}

namespace PerStepCkpt

variable (model : CompModel)

/-- `llama_dsv4_spec_ckpt_save` in the per-step mode. -/
def save (ckpt : PerStepCkpt Row) (rings : StateTensor → Int → Row) : PerStepCkpt Row :=
  { ckpt with
    stateShadow := fun m =>
      match model.stateTensors[m]? with
      | some tensor => rings tensor
      | none => ckpt.stateShadow m
    saved := true
    csa := {}, hca := {}, lid := {} }

def recordPlan (ckpt : PerStepCkpt Row) (batch : Batch) : PerStepCkpt Row :=
  { ckpt with
    csa := (model.csaShape.buildCompPlan batch).deltaIdxs
    hca := (model.hcaShape.buildCompPlan batch).deltaIdxs
    lid := (model.lidShape.buildCompPlan batch).deltaIdxs }

/-- The rows of one tensor copied by `dsv4_per_step_capture_group`; `m` is the place of its
delta. -/
def captureTensor (ckpt : PerStepCkpt Row) (rings : StateTensor → Int → Row) (idxs : DeltaIdxs)
    (m : Nat) (tensor : StateTensor) (deltaRows : Nat → Row) : Option (Nat → Row) :=
  if m < model.stateTensors.length ∧ ∀ row ∈ idxs.src.zip idxs.dst,
      row.1 < ckpt.maxTokens ∧ 0 ≤ row.2 ∧ row.2 < model.stateRows tensor then
    some (scatter deltaRows ((idxs.src.zip idxs.dst).map fun row => (row.1, rings tensor row.2)))
  else none

/-- `dsv4_per_step_capture_group`; the result is the delta tensors, `none` a failed capture. -/
def captureGroup (ckpt : PerStepCkpt Row) (rings : StateTensor → Int → Row) (batch : Batch)
    (group : StateGroup) (delta : Nat → Nat → Row) : Option (Nat → Nat → Row) :=
  let idxs := ((model.shape group).buildCompPlan batch).deltaIdxs
  if idxs.src.length ≠ idxs.dst.length ∨ ckpt.maxTokens < idxs.src.length then none
  else
    updateEach (captureTensor model ckpt rings idxs) delta
      ((model.compact group).map fun tensor => (model.stateTensors.idxOf tensor, tensor))

def captureRows (ckpt : PerStepCkpt Row) (rings : StateTensor → Int → Row) (batch : Batch) :
    Option (PerStepCkpt Row) :=
  if ckpt.saved = false then some ckpt
  else do
    let delta ← StateGroup.all.foldlM
      (fun delta group => captureGroup model ckpt rings batch group delta) ckpt.delta
    return { ckpt with delta := delta }

/-- `dsv4_per_step_copy_base(ctx, true)`. -/
def restoreBase (ckpt : PerStepCkpt Row) (rings : StateTensor → Int → Row) :
    StateTensor → Int → Row :=
  scatter rings (model.stateTensors.zipIdx.map fun entry => (entry.1, ckpt.stateShadow entry.2))

def groupOffset (group : StateGroup) : Nat :=
  let csaScoreOff := (model.compact .csaKv).length
  let hcaKvOff := csaScoreOff + (model.compact .csaScore).length
  let hcaScoreOff := hcaKvOff + (model.compact .hcaKv).length
  let lidKvOff := hcaScoreOff + (model.compact .hcaScore).length
  let lidScoreOff := lidKvOff + (model.compact .lidKv).length
  match group with
  | .csaKv => 0
  | .csaScore => csaScoreOff
  | .hcaKv => hcaKvOff
  | .hcaScore => hcaScoreOff
  | .lidKv => lidKvOff
  | .lidScore => lidScoreOff

/-- The index lists `restore_group` takes for an offset. -/
def idxsAt (ckpt : PerStepCkpt Row) (offset : Nat) : DeltaIdxs :=
  if offset = groupOffset model .csaKv ∨ offset = groupOffset model .csaScore then ckpt.csa
  else if offset = groupOffset model .hcaKv ∨ offset = groupOffset model .hcaScore then ckpt.hca
  else ckpt.lid

/-- The rows of one tensor put back by `dsv4_per_step_restore_rows`. -/
def restoreTensor (ckpt : PerStepCkpt Row) (idxs : DeltaIdxs) (acceptedStep : Nat)
    (tensor : StateTensor) (m : Nat) (ring : Int → Row) : Option (Int → Row) :=
  let visible := (idxs.src.zip idxs.dst).filter fun row => decide (row.1 ≤ acceptedStep)
  if ∀ row ∈ visible, 0 ≤ row.2 ∧ row.2 < model.stateRows tensor then
    some (scatter ring (visible.map fun row => (row.2, ckpt.delta m row.1)))
  else none

/-- `restore_group`, with the checks of `dsv4_per_step_restore_rows`. -/
def restoreGroup (ckpt : PerStepCkpt Row) (acceptedStep : Nat) (group : StateGroup)
    (rings : StateTensor → Int → Row) : Option (StateTensor → Int → Row) :=
  let offset := groupOffset model group
  let idxs := idxsAt model ckpt offset
  if idxs.src.length ≠ idxs.dst.length ∨ ckpt.maxTokens < idxs.src.length ∨
      model.stateTensors.length < offset ∨
      model.stateTensors.length - offset < (model.compact group).length then none
  else
    updateEach (restoreTensor model ckpt idxs acceptedStep) rings
      ((model.compact group).zipIdx offset)

/-- `llama_dsv4_spec_ckpt_restore` in the per-step mode. -/
def restore (ckpt : PerStepCkpt Row) (rings : StateTensor → Int → Row) (acceptedStep : Nat) :
    Option (StateTensor → Int → Row) :=
  if ckpt.saved = false then none
  else if model.stateTensors.length ≠
      groupOffset model .lidScore + (model.compact .lidScore).length then none
  else
    StateGroup.all.foldlM (fun rings group => restoreGroup model ckpt acceptedStep group rings)
      (restoreBase model ckpt rings)

def verify (ckpt : PerStepCkpt Row) (rings : StateTensor → Int → Row) (batch : Batch)
    (rows : StateTensor → Nat → Row) (acceptedStep : Nat) :
    Option (StateTensor → Int → Row) := do
  let recorded := (ckpt.save model rings).recordPlan model batch
  let decoded := model.decodeRings rings batch rows
  let captured ← recorded.captureRows model decoded batch
  captured.restore model decoded acceptedStep

end PerStepCkpt

end LlamaCpp.Dsv4
