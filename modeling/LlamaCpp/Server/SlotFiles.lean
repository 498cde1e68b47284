import LlamaCpp.Lib.Bytes
import LlamaCpp.Lib.Ensures
import LlamaCpp.Lib.Json
import LlamaCpp.Server.ServerTokens
import Mathlib.Data.List.GetD

/-!
# Saved slots

A slot is saved to three files: the state of its sequence, its tokens as JSON, and its
checkpoints.  The tokens come back as they were.  The checkpoint file is written only when
there are checkpoints and is read only when it is there, and it does not hold `n_tokens`.
-/

set_option autoImplicit false

namespace LlamaCpp.Server

open LlamaCpp.Lib List

@[ext] structure PromptCheckpoint where
  posMin : Int32
  posMax : Int32
  posMinPrompt : Int32
  posMaxPrompt : Int32
  nTokens : Int64
  data : Bytes
  dataFits : data.length < 256 ^ 8
deriving DecidableEq

def stateSeqMagic : Nat := 0x67677371

def stateSeqVersion : Nat := 6

def posBytes (pos : Int32) : Bytes := leBytes 4 pos.toBitVec.toNat

def checkpointBytes (checkpoint : PromptCheckpoint) : Bytes :=
  posBytes checkpoint.posMin ++ (posBytes checkpoint.posMax ++
    (posBytes checkpoint.posMinPrompt ++ (posBytes checkpoint.posMaxPrompt ++
      (leBytes 8 checkpoint.data.length ++ checkpoint.data))))

def checkpointHeader (count : Nat) : Bytes :=
  leBytes 4 stateSeqMagic ++ (leBytes 4 stateSeqVersion ++ leBytes 8 count)

/-- `save_checkpoints_to_file`: what it writes, if it opens the file. -/
def saveCheckpointsToFile (checkpoints : List PromptCheckpoint) : Option Bytes :=
  if checkpoints.length = 0 then none
  else some (checkpointHeader checkpoints.length ++ checkpoints.flatMap checkpointBytes)

/-- What the locals of the reader hold before they are assigned: the byte that stands where a
read runs past the end of the file, and the `n_tokens` of each checkpoint. -/
structure Memory where
  byte : Nat → UInt8
  nTokens : Nat → Int64

def byteAt (memory : Memory) (contents : Bytes) (offset : Nat) : UInt8 :=
  contents.getD offset (memory.byte offset)

/-- The scalar of `width` bytes at an offset of a file. -/
def scalarAt (memory : Memory) (contents : Bytes) (offset width : Nat) : Nat :=
  ofLeBytes ((List.range width).map fun i => byteAt memory contents (offset + i))

def posAt (memory : Memory) (contents : Bytes) (offset : Nat) : Int32 :=
  .ofBitVec (.ofNat 32 (scalarAt memory contents offset 4))

/-- A vector of `size` zeros, read over from the file. -/
def vectorAt (contents : Bytes) (offset size : Nat) : Bytes :=
  let available := (contents.drop offset).take size
  available ++ List.replicate (size - available.length) 0

theorem length_vectorAt (contents : Bytes) (offset size : Nat) :
    (vectorAt contents offset size).length = size := by
  simp only [vectorAt, length_append, length_take, length_replicate]
  omega

theorem scalarAt_lt (memory : Memory) (contents : Bytes) (offset width : Nat) :
    scalarAt memory contents offset width < 256 ^ width := by
  have bound := ofLeBytes_lt ((List.range width).map fun i => byteAt memory contents (offset + i))
  rwa [length_map, length_range] at bound

/-- One pass of the loop of `load_checkpoints_from_file`. -/
def checkpointAt (memory : Memory) (contents : Bytes) (index offset : Nat) : PromptCheckpoint where
  posMin := posAt memory contents offset
  posMax := posAt memory contents (offset + 4)
  posMinPrompt := posAt memory contents (offset + 8)
  posMaxPrompt := posAt memory contents (offset + 12)
  nTokens := memory.nTokens index
  data := vectorAt contents (offset + 24) (scalarAt memory contents (offset + 16) 8)
  dataFits := by
    rw [length_vectorAt]
    exact scalarAt_lt _ _ _ _

/-- The loop of `load_checkpoints_from_file`, `remaining` passes before its end. -/
def loadCheckpoints (memory : Memory) (contents : Bytes) :
    Nat → Nat → Nat → List PromptCheckpoint
  | 0, _, _ => []
  | remaining + 1, index, offset =>
    let checkpoint := checkpointAt memory contents index offset
    checkpoint :: loadCheckpoints memory contents remaining (index + 1)
      (offset + 24 + checkpoint.data.length)

def loadCheckpointsFromFile (memory : Memory) (file : Option Bytes)
    (checkpoints : List PromptCheckpoint) : List PromptCheckpoint :=
  match file with
  | none => checkpoints
  | some contents =>
    if scalarAt memory contents 0 4 ≠ stateSeqMagic ∨
        scalarAt memory contents 4 4 ≠ stateSeqVersion then []
    else loadCheckpoints memory contents (scalarAt memory contents 8 8) 0 16

section Reading

variable {memory : Memory} {front back : Bytes}

theorem scalarAt_eq_iff {contents : Bytes} {offset width value : Nat} (fits : value < 256 ^ width) :
    scalarAt memory contents offset width = value ↔
      ∀ i < width, byteAt memory contents (offset + i) = (leBytes width value).getD i 0 := by
  have lengths : ((List.range width).map fun i => byteAt memory contents (offset + i)).length =
      (leBytes width value).length := by simp
  constructor
  · intro same i inside
    have bytes := ofLeBytes_injective lengths (same.trans (ofLeBytes_leBytes_of_lt fits).symm)
    rw [← bytes]
    simp [inside]
  · intro bytes
    have same : ((List.range width).map fun i => byteAt memory contents (offset + i)) =
        leBytes width value := by
      refine ext_getElem lengths fun i leftInside rightInside => ?_
      rw [getElem_map, getElem_range, bytes i (by simpa using rightInside),
        getD_eq_getElem _ _ rightInside]
    rw [scalarAt, same, ofLeBytes_leBytes_of_lt fits]

theorem byteAt_append (middle : Bytes) {i : Nat} (inside : i < middle.length) :
    byteAt memory (front ++ (middle ++ back)) (front.length + i) = middle.getD i 0 := by
  rw [byteAt, getD_append_right _ _ _ _ (Nat.le_add_right _ _), Nat.add_sub_cancel_left,
    getD_append _ _ _ _ inside, getD_eq_getElem _ _ inside,
    getD_eq_getElem _ _ inside]

theorem scalarAt_append {width value : Nat} (fits : value < 256 ^ width) :
    scalarAt memory (front ++ (leBytes width value ++ back)) front.length width = value := by
  refine (scalarAt_eq_iff fits).mpr fun i inside => byteAt_append _ ?_
  rwa [length_leBytes]

theorem posAt_append (pos : Int32) :
    posAt memory (front ++ (posBytes pos ++ back)) front.length = pos := by
  have fits : pos.toBitVec.toNat < 256 ^ 4 := pos.toBitVec.isLt
  rw [posAt, posBytes, scalarAt_append fits, BitVec.ofNat_toNat]
  rfl

theorem vectorAt_append (front data back : Bytes) :
    vectorAt (front ++ (data ++ back)) front.length data.length = data := by
  simp [vectorAt]

end Reading

theorem length_checkpointBytes (checkpoint : PromptCheckpoint) :
    (checkpointBytes checkpoint).length = 24 + checkpoint.data.length := by
  simp only [checkpointBytes, posBytes, length_append, length_leBytes]
  omega

/-- A checkpoint is read back but for `n_tokens`. -/
theorem checkpointAt_append (memory : Memory) (front back : Bytes) (index : Nat)
    (checkpoint : PromptCheckpoint) :
    checkpointAt memory (front ++ (checkpointBytes checkpoint ++ back)) index front.length =
      { checkpoint with nTokens := memory.nTokens index } := by
  have reads (before after : Bytes) (pos : Int32) (offset : Nat) (here : offset = before.length)
      (whole : front ++ (checkpointBytes checkpoint ++ back) = before ++ (posBytes pos ++ after)) :
      posAt memory (front ++ (checkpointBytes checkpoint ++ back)) offset = pos := by
    rw [whole, here, posAt_append]
  have length4 (pos : Int32) : (posBytes pos).length = 4 := length_leBytes 4 _
  have size : scalarAt memory (front ++ (checkpointBytes checkpoint ++ back)) (front.length + 16) 8 =
      checkpoint.data.length := by
    have parts : front ++ (checkpointBytes checkpoint ++ back) =
        (front ++ (posBytes checkpoint.posMin ++ (posBytes checkpoint.posMax ++
          (posBytes checkpoint.posMinPrompt ++ posBytes checkpoint.posMaxPrompt)))) ++
        (leBytes 8 checkpoint.data.length ++ (checkpoint.data ++ back)) := by
      simp [checkpointBytes]
    have offset : front.length + 16 = (front ++ (posBytes checkpoint.posMin ++
        (posBytes checkpoint.posMax ++ (posBytes checkpoint.posMinPrompt ++
          posBytes checkpoint.posMaxPrompt)))).length := by
      simp [length4]
    rw [parts, offset, scalarAt_append checkpoint.dataFits]
  ext1
  · exact reads front _ _ _ rfl (by rfl)
  · exact reads (front ++ posBytes checkpoint.posMin) _ _ _
      (by rw [length_append, length4])
      (by simp only [append_assoc]; rfl)
  · exact reads (front ++ (posBytes checkpoint.posMin ++ posBytes checkpoint.posMax)) _ _ _
      (by simp only [length_append, length4])
      (by simp only [append_assoc]; rfl)
  · exact reads (front ++ (posBytes checkpoint.posMin ++ (posBytes checkpoint.posMax ++
        posBytes checkpoint.posMinPrompt))) _ _ _
      (by simp only [length_append, length4])
      (by simp only [append_assoc]; rfl)
  · rfl
  · have parts : front ++ (checkpointBytes checkpoint ++ back) =
        (front ++ (posBytes checkpoint.posMin ++ (posBytes checkpoint.posMax ++
          (posBytes checkpoint.posMinPrompt ++ (posBytes checkpoint.posMaxPrompt ++
            leBytes 8 checkpoint.data.length))))) ++ (checkpoint.data ++ back) := by
      simp [checkpointBytes]
    have offset : front.length + 24 = (front ++ (posBytes checkpoint.posMin ++
        (posBytes checkpoint.posMax ++ (posBytes checkpoint.posMinPrompt ++
          (posBytes checkpoint.posMaxPrompt ++ leBytes 8 checkpoint.data.length))))).length := by
      simp [length4]
    have data := vectorAt_append (front ++ (posBytes checkpoint.posMin ++
      (posBytes checkpoint.posMax ++ (posBytes checkpoint.posMinPrompt ++
        (posBytes checkpoint.posMaxPrompt ++ leBytes 8 checkpoint.data.length)))))
      checkpoint.data back
    rw [← parts, ← offset, ← size] at data
    exact data

/-- The loop reads back every checkpoint but for `n_tokens`. -/
theorem loadCheckpoints_append (memory : Memory) (checkpoints : List PromptCheckpoint)
    (front back : Bytes) (index : Nat) :
    loadCheckpoints memory (front ++ (checkpoints.flatMap checkpointBytes ++ back))
        checkpoints.length index front.length =
      checkpoints.mapIdx fun i checkpoint =>
        { checkpoint with nTokens := memory.nTokens (index + i) } := by
  induction checkpoints generalizing front index with
  | nil => rfl
  | cons checkpoint rest ih =>
    have here := checkpointAt_append memory front (rest.flatMap checkpointBytes ++ back) index
      checkpoint
    have later := ih (front ++ checkpointBytes checkpoint) (index + 1)
    rw [flatMap_cons, append_assoc, length_cons, loadCheckpoints, here]
    rw [length_append, length_checkpointBytes, append_assoc] at later
    rw [add_assoc, later]
    simp [add_assoc, add_comm 1]

theorem length_checkpointHeader (count : Nat) : (checkpointHeader count).length = 16 := by
  simp [checkpointHeader]

theorem header_iff (memory : Memory) (contents : Bytes) {count : Nat} (fits : count < 256 ^ 8) :
    scalarAt memory contents 0 4 = stateSeqMagic ∧ scalarAt memory contents 4 4 = stateSeqVersion ∧
        scalarAt memory contents 8 8 = count ↔
      ∀ i < 16, byteAt memory contents i = (checkpointHeader count).getD i 0 := by
  have magicFits : stateSeqMagic < 256 ^ 4 := by simp [stateSeqMagic]
  have versionFits : stateSeqVersion < 256 ^ 4 := by simp [stateSeqVersion]
  rw [scalarAt_eq_iff magicFits, scalarAt_eq_iff versionFits, scalarAt_eq_iff fits]
  have first (i : Nat) (inside : i < 4) :
      (checkpointHeader count).getD i 0 = (leBytes 4 stateSeqMagic).getD i 0 :=
    getD_append _ _ _ _ (by rwa [length_leBytes])
  have second (i : Nat) (inside : i < 4) :
      (checkpointHeader count).getD (4 + i) 0 = (leBytes 4 stateSeqVersion).getD i 0 := by
    rw [checkpointHeader, getD_append_right _ _ _ _ (by rw [length_leBytes]; omega),
      length_leBytes, Nat.add_sub_cancel_left]
    exact getD_append _ _ _ _ (by rwa [length_leBytes])
  have third (i : Nat) : (checkpointHeader count).getD (8 + i) 0 = (leBytes 8 count).getD i 0 := by
    rw [checkpointHeader, getD_append_right _ _ _ _ (by rw [length_leBytes]; omega),
      length_leBytes, getD_append_right _ _ _ _ (by rw [length_leBytes]; omega),
      length_leBytes]
    congr 1
    omega
  constructor
  · rintro ⟨magic, version, counted⟩ i inside
    rcases Nat.lt_or_ge i 4 with inMagic | afterMagic
    · rw [first i inMagic, ← magic i inMagic, Nat.zero_add]
    rcases lt_or_ge i 8 with inVersion | afterVersion
    · obtain ⟨j, rfl⟩ := Nat.exists_eq_add_of_le afterMagic
      rw [second j (by omega), ← version j (by omega)]
    · obtain ⟨j, rfl⟩ := Nat.exists_eq_add_of_le afterVersion
      rw [third j, ← counted j (by omega)]
  · intro bytes
    refine ⟨fun i inside => ?_, fun i inside => ?_, fun i inside => ?_⟩
    · rw [zero_add, bytes i (by omega), first i inside]
    · rw [bytes _ (by omega), second i inside]
    · rw [bytes _ (by omega), third i]

theorem load_saveCheckpoints (memory : Memory) {checkpoints old : List PromptCheckpoint}
    {contents : Bytes} (fits : checkpoints.length < 256 ^ 8)
    (saved : saveCheckpointsToFile checkpoints = some contents) :
    loadCheckpointsFromFile memory (some contents) old =
      checkpoints.mapIdx fun i checkpoint => { checkpoint with nTokens := memory.nTokens i } := by
  rw [saveCheckpointsToFile] at saved
  split_ifs at saved
  obtain rfl := Option.some.inj saved
  have lengthHeader := length_checkpointHeader checkpoints.length
  have header := (header_iff memory (checkpointHeader checkpoints.length ++
    checkpoints.flatMap checkpointBytes) fits).mpr fun i inside => by
      have known : i < (checkpointHeader checkpoints.length).length := by omega
      rw [byteAt, getD_append _ _ _ _ known, getD_eq_getElem _ _ known,
        getD_eq_getElem _ _ known]
  have loaded := loadCheckpoints_append memory checkpoints
    (checkpointHeader checkpoints.length) [] 0
  rw [append_nil, lengthHeader] at loaded
  simp only [zero_add] at loaded
  have known : ¬(_ ≠ stateSeqMagic ∨ _ ≠ stateSeqVersion) :=
    not_or.mpr ⟨not_not_intro header.1, not_not_intro header.2.1⟩
  rw [loadCheckpointsFromFile, if_neg known, header.2.2, loaded]

theorem length_loadCheckpoints (memory : Memory) (contents : Bytes) (remaining index offset : Nat) :
    (loadCheckpoints memory contents remaining index offset).length = remaining := by
  induction remaining generalizing index offset with
  | zero => rfl
  | succ remaining ih => rw [loadCheckpoints, length_cons, ih]

def HoldsNone (contents : Bytes) : Prop :=
  ∀ count more, 0 < count → count < 256 ^ 8 → ¬ checkpointHeader count <+: contents ++ more

theorem load_eq_nil_iff {contents : Bytes} {old : List PromptCheckpoint} :
    (∀ memory, loadCheckpointsFromFile memory (some contents) old = []) ↔ HoldsNone contents := by
  constructor
  · intro always count more positive fits starts
    let memory : Memory := ⟨fun i => (contents ++ more).getD i 0, fun _ => 0⟩
    have bytes (i : Nat) (inside : i < 16) :
        byteAt memory contents i = (checkpointHeader count).getD i 0 := by
      obtain ⟨rest, whole⟩ := starts
      have inHeader : i < (checkpointHeader count).length := by rwa [length_checkpointHeader]
      have known : (contents ++ more).getD i 0 = (checkpointHeader count).getD i 0 := by
        rw [← whole, getD_append _ _ _ _ inHeader]
      rw [byteAt, ← known]
      rcases lt_or_ge i contents.length with inContents | beyond
      · rw [getD_append _ _ _ _ inContents, getD_eq_getElem _ _ inContents,
          getD_eq_getElem _ _ inContents]
      · exact getD_eq_default _ _ beyond
    obtain ⟨magic, version, counted⟩ := (header_iff memory contents fits).mpr bytes
    have nothing := congrArg List.length (always memory)
    rw [loadCheckpointsFromFile, if_neg (not_or.mpr ⟨not_not_intro magic, not_not_intro version⟩),
      length_loadCheckpoints, length_nil] at nothing
    omega
  · intro none memory
    rw [loadCheckpointsFromFile]
    split_ifs with unknown
    · rfl
    obtain ⟨magic, version⟩ := not_or.mp unknown
    have fits := scalarAt_lt memory contents 8 8
    by_contra some
    have positive : 0 < scalarAt memory contents 8 8 := by
      have loaded := length_pos_of_ne_nil some
      rwa [length_loadCheckpoints] at loaded
    have bytes := (header_iff memory contents fits).mp ⟨not_not.mp magic, not_not.mp version, rfl⟩
    -- The locals continue a file that is too short.
    let more := (List.range 16).map fun i => memory.byte (contents.length + i)
    refine none _ more positive fits ?_
    refine prefix_iff_eq_take.mpr (ext_getElem ?_ fun i inHeader inTake => ?_)
    · rw [length_checkpointHeader]
      simp [more]
    · have inside : i < 16 := by rwa [length_checkpointHeader] at inHeader
      have here := bytes i inside
      rw [getElem_take, ← getD_eq_getElem _ 0 inHeader, ← here, byteAt]
      rcases lt_or_ge i contents.length with inContents | beyond
      · rw [getElem_append_left inContents, getD_eq_getElem _ _ inContents]
      · rw [getElem_append_right beyond, getD_eq_default _ _ beyond]
        simp only [more, getElem_map, getElem_range]
        congr 1
        omega


/-- `server_tokens` with the JSON of its chunks; the map is in the order of its keys. -/
@[ext] structure CacheTokens where
  hasMtmd : Bool
  mapIdxToMedia : List (Nat × Json)
  tokens : List Int32
  ordered : mapIdxToMedia.Pairwise fun earlier later => earlier.1 < later.1
  sizes : ∀ entry ∈ mapIdxToMedia, entry.1 < 2 ^ 64

def jsonInt (n : Int) : Json :=
  .number (if 0 ≤ n then .unsigned n.toNat else .integer n)

def serverMagic : UInt32 := 0x6c6d7376

def serverVersion : UInt32 := 1

/-- The document of `save_server_tokens_to_file`, with `server_tokens::to_json`. -/
def tokensJson (cached : CacheTokens) : Json :=
  .object [
    ("has_mtmd", .bool cached.hasMtmd),
    ("map_idx_to_media", .array (cached.mapIdxToMedia.map fun entry =>
      .object [("index", jsonInt entry.1), ("chunk", entry.2)])),
    ("tokens", .array (cached.tokens.map fun token => jsonInt token.toInt)),
    ("magic", jsonInt serverMagic.toNat),
    ("version", jsonInt serverVersion.toNat)]

/-- `j.value(key, otherwise)`. -/
def jsonValue {α : Type} (get : Json → Except String α) (j : Json) (key : String) (otherwise : α) :
    Except String α :=
  match j with
  | .object entries =>
    match entries.lookup key with
    | some value => get value
    | none => .ok otherwise
  | _ => .error "type_error"

/-- `j.at(key)`. -/
def jsonAt (j : Json) (key : String) : Except String Json :=
  match j.find? key with
  | some value => .ok value
  | none => .error "out_of_range"

def mediaEntry (entry : Json) : Except String (UInt64 × Json) := do
  let idx ← (← jsonAt entry "index").getSize
  let chunk ← jsonAt entry "chunk"
  pure (idx, chunk)

def mediaMap (entries : List (UInt64 × Json)) : List (Nat × Json) :=
  setAll (entries.map fun entry => (entry.1.toNat, entry.2)) []

theorem mediaMap_sizes (entries : List (UInt64 × Json)) :
    ∀ entry ∈ mediaMap entries, entry.1 < 2 ^ 64 := by
  intro entry mem
  rcases mem_setAll mem with inEntries | impossible
  · obtain ⟨original, -, rfl⟩ := mem_map.mp inEntries
    exact original.1.toNat_lt
  · exact absurd impossible not_mem_nil

def CacheTokens.fromJson (cached : CacheTokens) (j : Json) : Except String CacheTokens := do
  let hasMtmd ← jsonValue Json.getBool j "has_mtmd" cached.hasMtmd
  let tokens ← jsonValue (Json.getItems Json.getInt) j "tokens" cached.tokens
  let media ← match ← jsonAt j "map_idx_to_media" with
    | .array entries => entries.mapM mediaEntry
    | _ => pure []
  pure ⟨hasMtmd, mediaMap media, tokens, setAll_ordered _ .nil, mediaMap_sizes media⟩

/-- `load_server_tokens_from_file` on the parsed document; an unknown magic leaves the tokens. -/
def CacheTokens.load (cached : CacheTokens) (j : Json) : Except String CacheTokens := do
  let magic ← jsonValue Json.getUInt32 j "magic" 0
  let version ← jsonValue Json.getUInt32 j "version" 0
  if magic ≠ serverMagic ∨ version ≠ serverVersion then pure cached else cached.fromJson j

def CacheTokens.resize (cached : CacheTokens) (size : Nat) : CacheTokens :=
  { cached with tokens :=
      cached.tokens.take size ++ List.replicate (size - cached.tokens.length) 0 }

structure SavedSlot where
  cacheTokens : CacheTokens
  checkpoints : List PromptCheckpoint
  countFits : checkpoints.length < 256 ^ 8

structure SlotServer (κ : Type) where
  kv : κ
  slots : Nat → SavedSlot
  files : String → Option Bytes
  nCtx : Nat

/-- The JSON library, and `llama_state_seq_save_file` and `llama_state_seq_load_file` on the
contents of the state file; the latter gives the tokens it reads unless it returns 0. -/
structure SlotIo (κ : Type) where
  dump : Json → Bytes
  parse : Bytes → Option Json
  saveState : κ → Nat → List Int32 → Bytes
  loadState : κ → Nat → Nat → Option Bytes → κ × Option (List Int32)

def tokensFile (filepath : String) : String := filepath ++ ".tokens.json"

def checkpointsFile (filepath : String) : String := filepath ++ ".checkpoints"

/-- The files that a save to `filepath` may write. -/
def slotFiles (filepath : String) : List String :=
  [filepath, tokensFile filepath, checkpointsFile filepath]

theorem loadCheckpointsFromFile_countFits (memory : Memory) (file : Option Bytes)
    {checkpoints : List PromptCheckpoint} (fits : checkpoints.length < 256 ^ 8) :
    (loadCheckpointsFromFile memory file checkpoints).length < 256 ^ 8 := by
  unfold loadCheckpointsFromFile
  split
  · exact fits
  · split_ifs
    · exact Nat.pow_pos (by omega)
    · rw [length_loadCheckpoints]
      exact scalarAt_lt _ _ _ _

section Commands

variable {κ : Type} (io : SlotIo κ) (s : SlotServer κ)

/-- `SERVER_TASK_TYPE_SLOT_SAVE` of an available slot. -/
def saveSlot (id : Nat) (filepath : String) : SlotServer κ :=
  let slot := s.slots id
  let withTokens := Function.update s.files (tokensFile filepath)
    (some (io.dump (tokensJson slot.cacheTokens)))
  let withCheckpoints := match saveCheckpointsToFile slot.checkpoints with
    | none => withTokens
    | some contents => Function.update withTokens (checkpointsFile filepath) (some contents)
  let state := io.saveState s.kv id slot.cacheTokens.tokens
  { s with files := Function.update withCheckpoints filepath (some state) }

/-- `load_server_tokens_from_file`; an exception of the JSON library is `none`. -/
def loadTokens (filepath : String) (cached : CacheTokens) : Option CacheTokens :=
  match s.files (tokensFile filepath) with
  | none => some cached
  | some text => (io.parse text).bind fun j => (cached.load j).toOption

/-- `SERVER_TASK_TYPE_SLOT_RESTORE` of an available slot, with the answer's `error == false`. -/
def restoreSlot (memory : Memory) (id : Nat) (filepath : String) :
    Option (SlotServer κ × Bool) :=
  let slot := s.slots id
  let room := slot.cacheTokens.resize s.nCtx
  match io.loadState s.kv id s.nCtx (s.files filepath) with
  | (kv, none) =>
    let emptied := { slot with cacheTokens := room.resize 0 }
    some ({ s with kv := kv, slots := Function.update s.slots id emptied }, false)
  | (kv, some tokens) =>
    let read := { room with tokens := tokens ++ room.tokens.drop tokens.length }
    (loadTokens io s filepath read).map fun cached =>
      let file := s.files (checkpointsFile filepath)
      let restored := ⟨cached, loadCheckpointsFromFile memory file slot.checkpoints,
        loadCheckpointsFromFile_countFits memory file slot.countFits⟩
      ({ s with kv := kv, slots := Function.update s.slots id restored }, true)

/-- The commands, and any other work of the server, which writes no slot files. -/
inductive SlotOp (κ : Type)
  | save (id : Nat) (filepath : String)
  | restore (memory : Memory) (id : Nat) (filepath : String)
  | work (kv : κ) (slots : Nat → SavedSlot)

def slotStep (op : SlotOp κ) : Option (SlotServer κ) :=
  match op with
  | .save id filepath => some (saveSlot io s id filepath)
  | .restore memory id filepath => (restoreSlot io s memory id filepath).map Prod.fst
  | .work kv slots => some { s with kv := kv, slots := slots }

/-- The operation saves to no file of `filepath`. -/
def Untouched (filepath : String) : SlotOp κ → Prop
  | .save _ other => ∀ name ∈ slotFiles other, name ∉ slotFiles filepath
  | _ => True

end Commands

theorem truncate_jsonInt (n : Int) : (jsonInt n).getNumber = .ok n := by
  rw [jsonInt, Json.getNumber]
  split_ifs with nonneg
  · rw [JsonNumber.truncate, Int.toNat_of_nonneg nonneg]
  · rw [JsonNumber.truncate]

theorem getInt_jsonInt (token : Int32) : (jsonInt token.toInt).getInt = .ok token := by
  rw [Json.getInt, truncate_jsonInt]
  exact congrArg Except.ok (Int32.ofInt_toInt token)

theorem getUInt32_jsonInt (n : UInt32) : (jsonInt n.toNat).getUInt32 = .ok n := by
  have small := n.toNat_lt
  have same : UInt32.ofNat ((n.toNat : Int) % 2 ^ 32).toNat = n := by
    rw [Int.emod_eq_of_lt (by omega) (by omega), Int.toNat_natCast, UInt32.ofNat_toNat]
  exact congrArg Except.ok same

theorem getSize_jsonInt {n : Nat} (small : n < 2 ^ 64) :
    (jsonInt n).getSize = .ok (UInt64.ofNat n) := by
  have same : ((n : Int) % 2 ^ 64).toNat = n := by omega
  exact congrArg (fun m => Except.ok (UInt64.ofNat m)) same

theorem mapM_map_ok {α β γ ε : Type} {get : β → Except ε γ} {put : α → β} {back : α → γ}
    {items : List α} (reads : ∀ item ∈ items, get (put item) = .ok (back item)) :
    (items.map put).mapM get = .ok (items.map back) := by
  induction items with
  | nil => rfl
  | cons item rest ih =>
    rw [map_cons, mapM_cons, reads item mem_cons_self,
      ih fun other mem => reads other (mem_cons_of_mem _ mem)]
    rfl

theorem mediaMap_toMap (cached : CacheTokens) :
    mediaMap (cached.mapIdxToMedia.map fun entry => (UInt64.ofNat entry.1, entry.2)) =
      cached.mapIdxToMedia := by
  have same : ((cached.mapIdxToMedia.map fun entry => (UInt64.ofNat entry.1, entry.2)).map
      fun entry => (entry.1.toNat, entry.2)) = cached.mapIdxToMedia := by
    rw [map_map]
    refine (map_congr_left fun entry mem => ?_).trans (map_id _)
    have small := cached.sizes entry mem
    simp only [Function.comp_apply, UInt64.toNat_ofNat', Nat.mod_eq_of_lt small, id_eq]
  rw [mediaMap, same, setAll_append _ _ cached.ordered fun _ impossible =>
    absurd impossible not_mem_nil, nil_append]

theorem load_tokensJson (cached saved : CacheTokens) : cached.load (tokensJson saved) = .ok saved := by
  have tokens : (Json.array (saved.tokens.map fun token => jsonInt token.toInt)).getItems
      Json.getInt = .ok saved.tokens := by
    have items : (saved.tokens.map fun token => jsonInt token.toInt).mapM Json.getInt =
        .ok (saved.tokens.map id) := mapM_map_ok fun token _ => getInt_jsonInt token
    rwa [map_id] at items
  have media : (saved.mapIdxToMedia.map fun entry =>
      Json.object [("index", jsonInt entry.1), ("chunk", entry.2)]).mapM mediaEntry =
      .ok (saved.mapIdxToMedia.map fun entry => (UInt64.ofNat entry.1, entry.2)) := by
    refine mapM_map_ok fun entry mem => ?_
    have index : jsonAt (.object [("index", jsonInt entry.1), ("chunk", entry.2)]) "index" =
        .ok (jsonInt entry.1) := by simp [jsonAt, Json.find?]
    have chunk : jsonAt (.object [("index", jsonInt entry.1), ("chunk", entry.2)]) "chunk" =
        .ok entry.2 := by simp [jsonAt, Json.find?, lookup_cons]
    rw [mediaEntry, index, ok_bind, getSize_jsonInt (saved.sizes entry mem), chunk]
    rfl
  have magic : jsonValue Json.getUInt32 (tokensJson saved) "magic" 0 = .ok serverMagic := by
    simpa [jsonValue, tokensJson, lookup_cons] using getUInt32_jsonInt serverMagic
  have version : jsonValue Json.getUInt32 (tokensJson saved) "version" 0 = .ok serverVersion := by
    simpa [jsonValue, tokensJson, lookup_cons] using getUInt32_jsonInt serverVersion
  have hasMtmd : jsonValue Json.getBool (tokensJson saved) "has_mtmd" cached.hasMtmd =
      .ok saved.hasMtmd := by
    simp [jsonValue, tokensJson, Json.getBool]
  have list : jsonValue (Json.getItems Json.getInt) (tokensJson saved) "tokens" cached.tokens =
      .ok saved.tokens := by
    simpa [jsonValue, tokensJson, lookup_cons] using tokens
  have map : jsonAt (tokensJson saved) "map_idx_to_media" =
      .ok (.array (saved.mapIdxToMedia.map fun entry =>
        .object [("index", jsonInt entry.1), ("chunk", entry.2)])) := by
    simp [jsonAt, tokensJson, Json.find?, lookup_cons]
  have read : cached.fromJson (tokensJson saved) = .ok saved := by
    rw [CacheTokens.fromJson, hasMtmd, ok_bind, list, ok_bind, map, ok_bind]
    dsimp only
    rw [media]
    exact congrArg Except.ok (CacheTokens.ext rfl (mediaMap_toMap saved) rfl)
  rw [CacheTokens.load, magic, ok_bind, version, ok_bind, if_neg (by simp), read]

section Runs

variable {κ : Type} {io : SlotIo κ}

theorem tokensFile_ne (filepath : String) : tokensFile filepath ≠ filepath := by
  intro same
  have lengths := congrArg String.length same
  simp [tokensFile] at lengths

theorem checkpointsFile_ne (filepath : String) : checkpointsFile filepath ≠ filepath := by
  intro same
  have lengths := congrArg String.length same
  simp [checkpointsFile] at lengths

theorem checkpointsFile_ne_tokensFile (filepath : String) :
    checkpointsFile filepath ≠ tokensFile filepath := by
  intro same
  have suffixes := (String.append_right_inj filepath).mp same
  simp at suffixes

variable {name filepath : String}

theorem saveSlot_files (s : SlotServer κ) (id : Nat) (filepath : String)
    (other : name ∉ slotFiles filepath) :
    (saveSlot io s id filepath).files name = s.files name := by
  have apart : name ≠ filepath ∧ name ≠ tokensFile filepath ∧ name ≠ checkpointsFile filepath := by
    simpa [slotFiles] using other
  unfold saveSlot
  dsimp only
  rw [Function.update_of_ne apart.1]
  cases saveCheckpointsToFile (s.slots id).checkpoints with
  | none => exact Function.update_of_ne apart.2.1 _ _
  | some contents =>
    dsimp only
    rw [Function.update_of_ne apart.2.2, Function.update_of_ne apart.2.1]

theorem saveSlot_tokensFile (s : SlotServer κ) (id : Nat) (filepath : String) :
    (saveSlot io s id filepath).files (tokensFile filepath) =
      some (io.dump (tokensJson (s.slots id).cacheTokens)) := by
  unfold saveSlot
  dsimp only
  rw [Function.update_of_ne (tokensFile_ne filepath)]
  cases saveCheckpointsToFile (s.slots id).checkpoints with
  | none => exact Function.update_self _ _ _
  | some contents =>
    dsimp only
    rw [Function.update_of_ne (checkpointsFile_ne_tokensFile filepath).symm, Function.update_self]

theorem saveSlot_checkpointsFile (s : SlotServer κ) (id : Nat) (filepath : String) :
    (saveSlot io s id filepath).files (checkpointsFile filepath) =
      match saveCheckpointsToFile (s.slots id).checkpoints with
      | none => s.files (checkpointsFile filepath)
      | some contents => some contents := by
  unfold saveSlot
  dsimp only
  rw [Function.update_of_ne (checkpointsFile_ne filepath)]
  cases saveCheckpointsToFile (s.slots id).checkpoints with
  | none => exact Function.update_of_ne (checkpointsFile_ne_tokensFile filepath) _ _
  | some contents => exact Function.update_self _ _ _

theorem restoreSlot_files {s next : SlotServer κ} {memory : Memory} {id : Nat} {ok : Bool}
    (restored : restoreSlot io s memory id filepath = some (next, ok)) : next.files = s.files := by
  unfold restoreSlot at restored
  split at restored
  · cases restored
    rfl
  · obtain ⟨cached, -, same⟩ := Option.map_eq_some_iff.mp restored
    cases same
    rfl

/-- One operation leaves the files of `filepath` that it may not write. -/
theorem slotStep_files {s next : SlotServer κ} {op : SlotOp κ} (untouched : Untouched filepath op)
    (mem : name ∈ slotFiles filepath) (stepped : slotStep io s op = some next) :
    next.files name = s.files name := by
  cases op with
  | save id other =>
    cases stepped
    exact saveSlot_files s id other fun written => untouched name written mem
  | restore memory id other =>
    obtain ⟨⟨final, ok⟩, restored, rfl⟩ := Option.map_eq_some_iff.mp stepped
    rw [restoreSlot_files restored]
  | work kv slots =>
    cases stepped
    rfl

theorem run_files {start final : SlotServer κ}
    (run : Reaches (slotStep io) (fun _ op => Untouched filepath op) start final)
    (mem : name ∈ slotFiles filepath) : final.files name = start.files name :=
  run.invariant (fun s => s.files name = start.files name) rfl
    fun _ _ _ same untouched stepped => (slotStep_files untouched mem stepped).trans same

/-- What a save followed by other work leaves of the checkpoints: all but `n_tokens` when there
are any, else what the slot held, or what an older file holds. -/
def restoredCheckpoints (memory : Memory) (saved held : List PromptCheckpoint)
    (older : Option Bytes) : List PromptCheckpoint :=
  if saved.length = 0 then loadCheckpointsFromFile memory older held
  else saved.mapIdx fun i checkpoint => { checkpoint with nTokens := memory.nTokens i }

theorem restoreSlot_after_save {s final : SlotServer κ} {id : Nat} (target : Nat)
    (run : Reaches (slotStep io) (fun _ op => Untouched filepath op) (saveSlot io s id filepath) final)
    (parses : io.parse (io.dump (tokensJson (s.slots id).cacheTokens)) = some (tokensJson (s.slots id).cacheTokens))
    (loads : (io.loadState final.kv target final.nCtx (final.files filepath)).2.isSome)
    (memory : Memory) : ∃ next, restoreSlot io final memory target filepath = some (next, true) ∧
      (next.slots target).cacheTokens = (s.slots id).cacheTokens ∧
      (next.slots target).checkpoints = restoredCheckpoints memory (s.slots id).checkpoints
        (final.slots target).checkpoints (s.files (checkpointsFile filepath)) := by
  have tokensText : final.files (tokensFile filepath) =
      some (io.dump (tokensJson (s.slots id).cacheTokens)) := by
    rw [run_files run (by simp [slotFiles]), saveSlot_tokensFile]
  have checkpointsText := run_files run
    (show checkpointsFile filepath ∈ slotFiles filepath by simp [slotFiles])
  rw [saveSlot_checkpointsFile] at checkpointsText
  unfold restoreSlot
  cases outcome : io.loadState final.kv target final.nCtx (final.files filepath) with
  | mk kv tokens =>
    rw [outcome] at loads
    obtain ⟨read, rfl⟩ := Option.isSome_iff_exists.mp loads
    dsimp only
    have loaded (cached : CacheTokens) :
        loadTokens io final filepath cached = some (s.slots id).cacheTokens := by
      rw [loadTokens, tokensText]
      dsimp only
      rw [parses, Option.bind_some, load_tokensJson]
      rfl
    rw [loaded]
    refine ⟨_, rfl, ?_, ?_⟩
    · dsimp only
      rw [Function.update_self]
    · dsimp only
      rw [Function.update_self]
      dsimp only
      rw [checkpointsText, restoredCheckpoints]
      by_cases empty : (s.slots id).checkpoints.length = 0
      · rw [if_pos empty, saveCheckpointsToFile, if_pos empty]
      · rw [if_neg empty]
        cases saved : saveCheckpointsToFile (s.slots id).checkpoints with
        | none =>
          rw [saveCheckpointsToFile, if_neg empty] at saved
          contradiction
        | some contents => exact load_saveCheckpoints memory (s.slots id).countFits saved

/-- The slot holds no checkpoint that a restore without a checkpoint file would leave, and an
older file holds none either. -/
def RestoresNone (held : List PromptCheckpoint) : Option Bytes → Prop
  | none => held = []
  | some contents => HoldsNone contents

theorem restoredCheckpoints_eq_iff {saved held : List PromptCheckpoint} {older : Option Bytes} :
    (∀ memory, restoredCheckpoints memory saved held older = saved) ↔
      saved = [] ∧ RestoresNone held older := by
  cases saved with
  | nil =>
    have here (memory : Memory) : restoredCheckpoints memory [] held older =
        loadCheckpointsFromFile memory older held := if_pos rfl
    simp only [here, true_and]
    cases older with
    | none => exact ⟨fun always => always ⟨fun _ => 0, fun _ => 0⟩, fun empty _ => empty⟩
    | some contents => exact load_eq_nil_iff
  | cons first rest =>
    refine iff_of_false (fun always => ?_) fun impossible =>
      absurd impossible.1 (cons_ne_nil _ _)
    have same := always ⟨fun _ => 0, fun _ => first.nTokens + 1⟩
    rw [restoredCheckpoints, length_cons, mapIdx_cons] at same
    have changed := congrArg PromptCheckpoint.nTokens (List.cons.inj same).1
    have bits := congrArg Int64.toBitVec changed
    simp at bits

end Runs

def noTokens : CacheTokens := ⟨false, [], [], .nil, fun _ impossible => nomatch impossible⟩

def noTokensText : Bytes :=
  ("\x7b\"has_mtmd\":false,\"map_idx_to_media\":[],\"tokens\":[]," ++
    "\"magic\":1819112310,\"version\":1\x7d").toUTF8.data.toList

def emptySlotIo : SlotIo Unit where
  dump _ := noTokensText
  parse text := if text = noTokensText then some (tokensJson noTokens) else none
  saveState _ _ _ := leBytes 4 stateSeqMagic ++ (leBytes 4 stateSeqVersion ++ leBytes 4 0)
  loadState _ _ _ file := ((), file.map fun _ => [])

def heldSlots : SlotServer Unit where
  kv := ()
  slots id :=
    if id = 1 then ⟨noTokens, [⟨0, 63, 0, 63, 64, [], Nat.pow_pos (by omega)⟩], by simp⟩
    else ⟨noTokens, [], Nat.pow_pos (by omega)⟩
  files _ := none
  nCtx := 4

theorem emptySlotIo_parses (id : Nat) :
    emptySlotIo.parse (emptySlotIo.dump (tokensJson (heldSlots.slots id).cacheTokens)) =
      some (tokensJson (heldSlots.slots id).cacheTokens) := by
  have same : (heldSlots.slots id).cacheTokens = noTokens := by
    dsimp only [heldSlots]
    split_ifs <;> rfl
  rw [same]
  simp [emptySlotIo]

end LlamaCpp.Server
