import LlamaCpp.Gguf.DataSizes
import LlamaCpp.Gguf.RoundTrip

/-!
# Ranges of the tensors

Which files make `gguf_init_from_file` divide by zero, compute a size that does not fit 64 bits, or
return a tensor that does not lie in the data section.
-/

set_option autoImplicit false

namespace LlamaCpp.Gguf

open LlamaCpp.Lib List
open LlamaCpp.Ggml

def productSteps (ne : Fin 4 → BitVec 64) : BitVec 64 → List (Fin 4) → List Step
  | _, [] => []
  | size, i :: rest => .size (size.toNat * (ne i).toNat) :: productSteps ne (size * ne i) rest

theorem adds_noteProduct (ne : Fin 4 → BitVec 64) (size : BitVec 64) (dims : List (Fin 4)) :
    Adds (noteProduct ne size dims) (.ok (dims.foldl (fun size i => size * ne i) size))
      (productSteps ne size dims) := by
  induction dims generalizing size with
  | nil => exact adds_pure size
  | cons i rest ih =>
    have step : Adds (do note (Step.size (size.toNat * (ne i).toNat)); return size * ne i)
        (.ok (size * ne i)) [.size (size.toNat * (ne i).toNat)] := (adds_note _).bind (adds_pure _)
    exact step.bind (ih _)

def dimProduct (ne : Fin 4 → BitVec 64) (dims : List (Fin 4)) : Nat :=
  (dims.map fun i => (ne i).toNat).prod

theorem dimProduct_cons (ne : Fin 4 → BitVec 64) (i : Fin 4) (rest : List (Fin 4)) :
    dimProduct ne (i :: rest) = (ne i).toNat * dimProduct ne rest := by
  rw [dimProduct, map_cons, prod_cons, dimProduct]

variable {ne : Fin 4 → BitVec 64}

theorem dimProduct_pos (positive : ∀ i, 0 < (ne i).toNat) (dims : List (Fin 4)) :
    0 < dimProduct ne dims := by
  induction dims with
  | nil => exact one_pos
  | cons i rest ih =>
    exact Nat.mul_pos (positive i) ih

theorem fineAll_productSteps (positive : ∀ i, 0 < (ne i).toNat) (size : BitVec 64)
    (dims : List (Fin 4)) :
    FineAll (productSteps ne size dims) ↔ size.toNat * dimProduct ne dims < 2 ^ 64 := by
  induction dims generalizing size with
  | nil =>
    rw [dimProduct, map_nil, prod_nil, mul_one]
    exact ⟨fun _ => size.isLt, fun _ => fineAll_nil⟩
  | cons i rest ih =>
    have some_ := dimProduct_pos positive rest
    rw [productSteps, fineAll_cons, ih, dimProduct_cons, ← mul_assoc,
      BitVec.toNat_mul]
    constructor
    · rintro ⟨fits, later⟩
      rwa [Nat.mod_eq_of_lt fits] at later
    · intro fits
      have first := lt_of_le_of_lt (Nat.le_mul_of_pos_right _ some_) fits
      rw [Nat.mod_eq_of_lt first]
      exact ⟨first, fits⟩

theorem dimProduct_filter {used : Fin 4 → Bool} (one : ∀ i, ¬ used i = true → ne i = 1)
    (dims : List (Fin 4)) : dimProduct ne (dims.filter used) = dimProduct ne dims := by
  induction dims with
  | nil => rfl
  | cons i rest ih =>
    rw [filter_cons, dimProduct_cons]
    split
    · rw [dimProduct_cons, ih]
    · rename_i unused
      rw [ih, one i unused]
      exact (one_mul _).symm

section

variable (types : TypeTraits)

def exactBlob {S : Type} (info : TensorInfo S) : Nat :=
  exactRowSize types info.type (info.ne 0) * dimProduct info.ne [1, 2, 3]

def newTensorSteps {S : Type} (info : TensorInfo S) : List Step :=
  rowSteps types info.type (info.ne 0) ++
    (productSteps info.ne (rowSize types info.type (info.ne 0))
        ([1, 2, 3].filter fun i : Fin 4 => i.val < info.nDims.toNat) ++
      productSteps info.ne (rowSize types info.type (info.ne 0)) [1, 2])

variable {types} {info : TensorInfo Bytes}

theorem adds_newTensor : Adds (newTensor types info) (.ok ()) (newTensorSteps types info) := by
  refine adds_noteRowSize.bind ((adds_noteProduct info.ne _ _).bind ?_)
  have last : Adds (do let _ ← noteProduct info.ne (rowSize types info.type (info.ne 0)) [1, 2])
      (.ok ()) (productSteps info.ne (rowSize types info.type (info.ne 0)) [1, 2] ++ []) :=
    (adds_noteProduct info.ne _ _).bind (adds_pure ())
  rwa [append_nil] at last

theorem fineAll_newTensorSteps (checked : CheckedInfo info) (blocks : types.blckSize info.type ≠ 0)
    (fits : RowFits types info.type (nelements info)) :
    FineAll (newTensorSteps types info) ↔ exactBlob types info < 2 ^ 64 := by
  have positive := checked.flat.ne_pos (sanitize_eq_true.mp checked.sane).1
  have fewer : (info.ne 0).toNat ≤ (nelements info).toNat := by
    rw [(toNat_nelements checked.sane).1, mul_assoc, mul_assoc]
    exact Nat.le_mul_of_pos_right _
      (Nat.mul_pos (positive 1) (Nat.mul_pos (positive 2) (positive 3)))
  have row := fits.mono fewer
  have unused : ∀ i : Fin 4, ¬ decide (i.val < info.nDims.toNat) = true → info.ne i = 1 := by
    intro i beyond
    rw [decide_eq_true_eq] at beyond
    exact checked.flat i (Nat.le_of_not_lt beyond)
  rw [newTensorSteps, fineAll_append, fineAll_append, fineAll_rowSteps blocks,
    fineAll_productSteps positive, fineAll_productSteps positive, dimProduct_filter unused,
    row.toNat_rowSize]
  constructor
  · exact fun fine => fine.2.1
  · intro small
    refine ⟨row, small, lt_of_le_of_lt (Nat.mul_le_mul_left _ ?_) small⟩
    exact Nat.mul_le_mul_left _ (Nat.mul_le_mul_left _ (dimProduct_pos positive [3]))

theorem adds_newTensors (infos : List (TensorInfo Bytes)) :
    Adds (infos.forM (newTensor types)) (.ok ()) (infos.flatMap (newTensorSteps types)) := by
  induction infos with
  | nil => exact adds_pure ()
  | cons info rest ih => exact adds_newTensor.bind ih

end

section

variable (types : TypeTraits) (params : InitParams)

/-- The sizes of the data section, of the memory and of the tensors are in range.  `available` is
what the file holds from the start of the data on. -/
structure DataFits (alignment : Nat) (infos : List (TensorInfo Bytes)) (available : Nat) : Prop where
  sizes : SizesFit types alignment infos
  memory : (∀ info ∈ infos, Whole types info) → params.ctx = true → params.noAlloc = false →
    (infos.length + 1) * tensorOverhead + exactTotal types alignment infos + 16 < 2 ^ 64
  tensors : (∀ info ∈ infos, Whole types info) → params.ctx = true →
    ¬ TooShort params (exactTotal types alignment infos) available →
    ∀ info ∈ infos, exactBlob types info < 2 ^ 64

/-- There is no division by zero either, and the tensors that are returned lie in the data
section. -/
structure DataSafe (alignment : Nat) (infos : List (TensorInfo Bytes)) (available : Nat) : Prop
    extends DataFits types params alignment infos available where
  aligned : alignment ≠ 0
  ranges : (∀ info ∈ infos, Whole types info) →
    ¬ TooShort params (exactTotal types alignment infos) available →
    ∀ info ∈ infos, info.offset.toNat +
      (nbytes types info.type info.ne (newTensorNb types info)).toNat ≤
        exactTotal types alignment infos

def ReaderSafe (file : Bytes) : Prop :=
  FineAll (initSteps types params file) ∧
    ∀ result, initFromFile types params file = .ok result → ∀ info ∈ result.infos,
      info.offset.toNat + (nbytes types info.type info.ne (newTensorNb types info)).toNat ≤
        result.size.toNat

variable {types params}

variable {infos : List (TensorInfo Bytes)} {alignment : Nat} {kv : List (Kv Bytes)} {length : Nat}

theorem counted_eq_self (whole : ∀ info ∈ infos, Whole types info) : counted types infos = infos :=
  takeWhile_eq_self_iff.mpr fun info member => decide_eq_true (whole info member)

theorem SizesFit.all (fits : SizesFit types alignment infos)
    (whole : ∀ info ∈ infos, Whole types info) :
    ∀ info ∈ infos, types.blckSize info.type ≠ 0 ∧ RowFits types info.type (nelements info) := by
  intro info member
  have tensors := fits.tensors
  have blocks := fits.blocks
  rw [counted_eq_self whole] at tensors blocks
  rw [take_of_length_le (Nat.le_succ _)] at blocks
  exact ⟨blocks info member, (tensors info member).rowFits⟩

theorem fineAll_flatMap {steps : TensorInfo Bytes → List Step} :
    FineAll (infos.flatMap steps) ↔ ∀ info ∈ infos, FineAll (steps info) := by
  induction infos with
  | nil => exact ⟨fun _ _ none => absurd none not_mem_nil, fun _ => fineAll_nil⟩
  | cons info rest ih => rw [flatMap_cons, fineAll_append, ih, forall_mem_cons]

theorem adds_createTensors {size : BitVec 64} {available : Nat}
    (count : (infos.length + 1) * tensorOverhead + 16 < 2 ^ 64)
    (checked : ∀ info ∈ infos, CheckedInfo info) :
    ∃ result added, Adds (createTensors types params infos size available) result added ∧
      ((∀ info ∈ infos,
          types.blckSize info.type ≠ 0 ∧ RowFits types info.type (nelements info)) →
        (FineAll added ↔
          (params.ctx = true → params.noAlloc = false →
            (infos.length + 1) * tensorOverhead + size.toNat + 16 < 2 ^ 64) ∧
          (params.ctx = true → ¬ TooShort params size.toNat available →
            ∀ info ∈ infos, exactBlob types info < 2 ^ 64))) ∧
      (TooShort params size.toNat available → ∃ message, result = .error message) ∧
      (¬ TooShort params size.toNat available → result = .ok ()) := by
  rw [createTensors]
  by_cases tensors : params.ctx = true
  swap
  · rw [if_neg tensors]
    exact ⟨.ok (), [], adds_pure (), fun _ => ⟨fun _ => ⟨fun ctx => absurd ctx tensors,
      fun ctx => absurd ctx tensors⟩, fun _ => fineAll_nil⟩,
      fun short => absurd short.1 tensors, fun _ => rfl⟩
  rw [if_pos tensors]
  -- the two sizes that are computed first
  have memory : FineAll [.size (if params.noAlloc then infos.length * tensorOverhead
        else (infos.length + 1) * tensorOverhead + size.toNat),
      .size ((if params.noAlloc then infos.length * tensorOverhead
        else (infos.length + 1) * tensorOverhead + size.toNat) + 16)] ↔
      (params.ctx = true → params.noAlloc = false →
        (infos.length + 1) * tensorOverhead + size.toNat + 16 < 2 ^ 64) := by
    rw [fineAll_cons, fineAll_cons, fine_size]
    cases alloc : params.noAlloc with
    | true =>
      have less : infos.length * tensorOverhead + 16 < 2 ^ 64 := by
        rw [Nat.add_mul] at count
        omega
      exact ⟨fun _ _ impossible => absurd impossible Bool.true_eq_false_eq_False,
        fun _ => ⟨lt_of_le_of_lt (Nat.le_add_right _ _) less, less, fineAll_nil⟩⟩
    | false =>
      exact ⟨fun fine _ _ => fine.2.1, fun fine =>
        ⟨lt_of_le_of_lt (Nat.le_add_right _ _) (fine tensors rfl), fine tensors rfl, fineAll_nil⟩⟩
  by_cases short : params.noAlloc = false ∧ available < size.toNat
  · refine ⟨_, _, (adds_note _).bind ((adds_note _).bind
      (by rw [if_pos short]; exact adds_throw _)), ?_, fun _ => ⟨_, rfl⟩,
      fun enough => absurd ⟨tensors, short⟩ enough⟩
    exact fun _ => ⟨fun fine => ⟨memory.mp fine, fun _ enough => absurd ⟨tensors, short⟩ enough⟩,
      fun fine => memory.mpr fine.1⟩
  · refine ⟨_, _, (adds_note _).bind ((adds_note _).bind
      (by rw [if_neg short]; exact adds_newTensors infos)), ?_,
      fun tooShort => absurd tooShort.2 short, fun _ => rfl⟩
    intro fits
    rw [← append_assoc, fineAll_append, fineAll_flatMap]
    have each : (∀ info ∈ infos, FineAll (newTensorSteps types info)) ↔
        ∀ info ∈ infos, exactBlob types info < 2 ^ 64 :=
      forall₂_congr fun info member => fineAll_newTensorSteps (checked info member)
        (fits info member).1 (fits info member).2
    rw [each]
    exact ⟨fun fine => ⟨memory.mp fine.1, fun _ _ => fine.2⟩, fun fine =>
      ⟨memory.mpr fine.1, fine.2 tensors fun tooShort => short tooShort.2⟩⟩

structure Returned (types : TypeTraits) (params : InitParams) (alignment : Nat)
    (infos : List (TensorInfo Bytes)) (available : Nat) (file : GgufFile) : Prop where
  whole : ∀ info ∈ infos, Whole types info
  enough : ¬ TooShort params (exactTotal types alignment infos) available
  size : file.size.toNat = exactTotal types alignment infos
  same : file.infos = infos

theorem adds_readData {offset : Nat} (align : alignment ≠ 0) (small : alignment < 2 ^ 64)
    (start : offset < 2 ^ 64) (count : (infos.length + 1) * tensorOverhead + 16 < 2 ^ 64)
    (checked : ∀ info ∈ infos, CheckedInfo info) :
    ∃ result added, Adds (readData types params length kv infos alignment offset) result added ∧
      (FineAll added ↔ DataFits types params alignment infos (length - offset)) ∧
      (FineAll added → ∀ file, result = .ok file →
        Returned types params alignment infos (length - offset) file) ∧
      (FineAll added → (∀ info ∈ infos, Whole types info) →
        ¬ TooShort params (exactTotal types alignment infos) (length - offset) →
        ∃ file, result = .ok file) := by
  obtain ⟨sum, sizeSteps, addsSizes, fineSizes, returns, stops⟩ :
      ∃ sum sizeSteps, Adds (dataSize types alignment infos) sum sizeSteps ∧ _ :=
    adds_foldlM_addSize align small 0 infos
  have sizes : FineAll sizeSteps ↔ SizesFit types alignment infos := fineSizes.trans fitsFrom_zero
  have first : FineAll [.size offset] := fineAll_cons.mpr ⟨start, fineAll_nil⟩
  by_cases counts : ∀ info ∈ infos, types.blckSize info.type ≠ 0 ∧ Whole types info
  · obtain ⟨total, rfl, value⟩ := returns counts
    have wholes : ∀ info ∈ infos, Whole types info := fun info member => (counts info member).2
    have exact_ (fine : FineAll sizeSteps) : total.toNat = exactTotal types alignment infos := by
      rw [value fine]
      exact zero_add _
    obtain ⟨created, tensorSteps, addsTensors, fineTensors, short, enough⟩ :
        ∃ created tensorSteps, Adds (createTensors types params infos total (length - offset)) _ _ ∧ _ :=
      adds_createTensors count checked
    have fine : FineAll ([.size offset] ++ (sizeSteps ++ tensorSteps)) ↔
        DataFits types params alignment infos (length - offset) := by
      rw [fineAll_append, fineAll_append]
      constructor
      · rintro ⟨-, fineSizes, fineTensor⟩
        have fits := sizes.mp fineSizes
        have later := (fineTensors (fits.all wholes)).mp fineTensor
        rw [exact_ fineSizes] at later
        exact ⟨fits, fun _ => later.1, fun _ => later.2⟩
      · intro fits
        have fineSizes := sizes.mpr fits.sizes
        refine ⟨first, fineSizes, (fineTensors (fits.sizes.all wholes)).mpr ?_⟩
        rw [exact_ fineSizes]
        exact ⟨fits.memory wholes, fits.tensors wholes⟩
    by_cases tooShort : TooShort params total.toNat (length - offset)
    · obtain ⟨message, rfl⟩ := short tooShort
      refine ⟨.error message, _, (adds_note _).bind (addsSizes.bind addsTensors.bind_error), fine,
        ?_, ?_⟩
      · intro _ file impossible
        cases impossible
      · intro all _ no
        rw [← exact_ (fineAll_append.mp (fineAll_append.mp all).2).1] at no
        exact absurd tooShort no
    · have ok := enough tooShort
      subst ok
      have adds : Adds (readData types params length kv infos alignment offset)
          (.ok { kv, infos, alignment, offset, size := total })
          ([.size offset] ++ (sizeSteps ++ (tensorSteps ++ []))) :=
        (adds_note _).bind (addsSizes.bind (addsTensors.bind (adds_pure _)))
      rw [append_nil] at adds
      refine ⟨_, _, adds, fine, ?_, fun _ _ _ => ⟨_, rfl⟩⟩
      intro all file same
      cases same
      have size := exact_ (fineAll_append.mp (fineAll_append.mp all).2).1
      rw [size] at tooShort
      exact ⟨wholes, tooShort, size, rfl⟩
  · have refused : ∃ info ∈ infos, ¬ (types.blckSize info.type ≠ 0 ∧ Whole types info) := by
      by_contra none
      exact counts fun info member => by_contra fun no => none ⟨info, member, no⟩
    obtain ⟨message, rfl⟩ := stops refused
    have never : SizesFit types alignment infos → ¬ ∀ info ∈ infos, Whole types info :=
      fun fits wholes => counts fun info member => ⟨(fits.all wholes info member).1, wholes info member⟩
    refine ⟨.error message, _, (adds_note _).bind addsSizes.bind_error, ?_, ?_, ?_⟩
    · rw [fineAll_append, sizes]
      exact ⟨fun fine => ⟨fine.2, fun wholes => absurd wholes (never fine.2),
        fun wholes => absurd wholes (never fine.2)⟩, fun fits => ⟨first, fits.sizes⟩⟩
    · intro _ file impossible
      cases impossible
    · exact fun fine wholes => absurd wholes (never (sizes.mp (fineAll_append.mp fine).2))

theorem alignOffset_lt {offset : Nat} (some_ : alignment ≠ 0) :
    alignOffset alignment offset < offset + alignment := by
  rw [alignOffset]
  split
  · omega
  · omega

theorem keyAlignment_lt (found : keyAlignment kv = some alignment) : alignment < 2 ^ 32 := by
  rw [keyAlignment] at found
  split at found
  · cases found
    decide
  · rename_i val _
    cases found
    exact val.isLt
  · cases found

/-- What the reader has found when everything before the padding is read: the alignment, the tensor
infos and how much of the file is left from the start of the data on. -/
def Opened (file : Bytes) (alignment : Nat) (infos : List (TensorInfo Bytes)) (available : Nat) :
    Prop :=
  ∃ kv after, freadMeta ⟨file, []⟩ = (.ok (kv, infos), after) ∧
    keyAlignment kv = some alignment ∧
    available = file.length - alignOffset alignment (file.length - after.bytes.length)

theorem finishFile_none (key : keyAlignment kv = none) (input : Input Step) :
    finishFile types params length kv infos input = (.error "GGML_ASSERT", input) := by
  rw [finishFile, fileAlignment, key]
  rfl

theorem finishFile_some (key : keyAlignment kv = some alignment) (input : Input Step) :
    finishFile types params length kv infos input =
      if alignment = 0 then
        (.error "division by zero", { input with notes := input.notes ++ [.divisor alignment] })
      else
        readData types params length kv infos alignment
          (alignOffset alignment (length - input.bytes.length))
          { input with notes := input.notes ++ [.divisor alignment] } := by
  have found : fileAlignment kv input = (.ok alignment, input) := by
    rw [fileAlignment, key]
    rfl
  rw [finishFile, bind_ok found]
  split
  · rfl
  · rfl

/-- The reader is safe exactly on the files whose data section is: nothing can go wrong before it,
and past it the numbers decide. -/
theorem readerSafe_iff (types : TypeTraits) (params : InitParams) (file : Bytes)
    (short : file.length < 2 ^ 63) : ReaderSafe types params file ↔
      ∀ alignment infos available, Opened file alignment infos available →
        DataSafe types params alignment infos available := by
  have start := notes_freadMeta ⟨file, []⟩ fun step none => absurd none not_mem_nil
  rw [ReaderSafe, initSteps, initFromFile, readFile, bind_apply]
  cases opened : freadMeta ⟨file, []⟩ with
  | mk result after =>
    rw [opened] at start
    cases result with
    | error message =>
      refine ⟨fun _ alignment infos available => ?_, fun _ => ⟨start, fun result impossible => ?_⟩⟩
      · rintro ⟨kv, left, read, -⟩
        rw [opened] at read
        cases read
      · cases impossible
    | ok found =>
      obtain ⟨kv, infos⟩ := found
      obtain ⟨count, checked⟩ := returns_freadMeta ⟨_, _, opened⟩
      dsimp only
      cases key : keyAlignment kv with
      | none =>
        rw [finishFile_none key]
        refine ⟨fun _ alignment infos available => ?_,
          fun _ => ⟨start, fun result impossible => ?_⟩⟩
        · rintro ⟨pairs, left, read, set, -⟩
          rw [opened] at read
          cases read
          rw [key] at set
          cases set
        · cases impossible
      | some alignment =>
        -- the files are those with one alignment and one list of infos
        have only : (∀ other infos' available, Opened file other infos' available →
            DataSafe types params other infos' available) ↔
            DataSafe types params alignment infos
              (file.length - alignOffset alignment (file.length - after.bytes.length)) := by
          constructor
          · exact fun all => all _ _ _ ⟨kv, after, opened, key, rfl⟩
          · rintro safe other infos' available ⟨pairs, left, read, set, rfl⟩
            rw [opened] at read
            cases read
            rw [key] at set
            cases set
            exact safe
        rw [only, finishFile_some key]
        by_cases zero : alignment = 0
        · rw [if_pos zero]
          refine ⟨fun safe => ?_, fun safe => absurd zero safe.aligned⟩
          exact absurd zero (fineAll_cons.mp (fineAll_append.mp safe.1).2).1
        · rw [if_neg zero]
          have small := keyAlignment_lt key
          have offset : alignOffset alignment (file.length - after.bytes.length) < 2 ^ 64 := by
            have less : alignOffset alignment (file.length - after.bytes.length) < _ :=
              alignOffset_lt zero
            omega
          obtain ⟨result, added, adds, fits, returned, returns⟩ :
              ∃ result added, Adds (readData types params file.length kv infos alignment _) _ _ ∧ _ :=
            adds_readData zero (by omega) offset count checked
          rw [adds]
          have fine : FineAll (after.notes ++ [.divisor alignment] ++ added) ↔ _ :=
            ⟨fun all => fits.mp (fineAll_append.mp all).2, fun data => fineAll_append.mpr
              ⟨fineAll_append.mpr ⟨start, fineAll_cons.mpr ⟨zero, fineAll_nil⟩⟩, fits.mpr data⟩⟩
          constructor
          · rintro ⟨all, inside⟩
            refine { fine.mp all with aligned := zero, ranges := fun wholes enough => ?_ }
            obtain ⟨read, same⟩ := returns (fineAll_append.mp all).2 wholes enough
            have file' := returned (fineAll_append.mp all).2 read same
            have ranges := inside read same
            rw [file'.same, file'.size] at ranges
            exact ranges
          · intro safe
            refine ⟨fine.mpr safe.toDataFits, fun read same => ?_⟩
            have file' := returned (fits.mpr safe.toDataFits) read same
            rw [file'.same, file'.size]
            exact safe.ranges file'.whole file'.enough

end

def strayFile : Bytes :=
  bwritePadded defaultAlignment (bwriteMeta
    { kv := [], alignment := defaultAlignment
      infos := [{ info := { name := oneFloat.name, nDims := 1, ne := fun _ => 1, type := 0, offset := 64 }
                  data := [] }] }) ++ List.replicate 32 0

def hasStray (types : TypeTraits) (file : GgufFile) : Bool :=
  file.infos.any fun info => file.size.toNat <
    info.offset.toNat + (nbytes types info.type info.ne (newTensorNb types info)).toNat

theorem length_strayFile : strayFile.length < 2 ^ 63 := by decide +kernel

/-- The data is loaded, and the tensor points past its end. -/
theorem reader_unsafe : ∃ (types : TypeTraits) (params : InitParams) (file : Bytes),
    file.length < 2 ^ 63 ∧ ¬ ReaderSafe types params file := by
  refine ⟨floatTypes, ⟨true, false⟩, strayFile, length_strayFile, fun safe => ?_⟩
  have stray : (match initFromFile floatTypes ⟨true, false⟩ strayFile with
      | .ok file => hasStray floatTypes file
      | .error _ => false) = true := by decide +kernel
  split at stray
  · rename_i file read
    obtain ⟨info, member, outside⟩ := any_eq_true.mp stray
    exact absurd (safe.2 file read info member) (not_le.mpr (of_decide_eq_true outside))
  · cases stray

theorem readerSafe_iff_strayFile : ReaderSafe floatTypes ⟨true, false⟩ strayFile ↔
    ∀ alignment infos available, Opened strayFile alignment infos available →
      DataSafe floatTypes ⟨true, false⟩ alignment infos available :=
  readerSafe_iff floatTypes ⟨true, false⟩ strayFile length_strayFile

end LlamaCpp.Gguf
