import LlamaCpp.Dsv4.Plan
import LlamaCpp.Lib.Run

/-!
# Runs of batches over the state ring and the compressed cache

A batch pools its blocks from the ring as it was and from its own rows, and then stores
rows into the ring.  When every sequence goes on from its last position, the ring holds the
last `stateSize` positions of each sequence and the compressed cache all its full blocks.
-/

set_option autoImplicit false

namespace LlamaCpp.Dsv4

open LlamaCpp.Lib List

variable {Row Block : Type*}

structure CompMem (Row Block : Type*) where
  state : Int → Row
  cache : Int → Block

structure Feed (Row : Type*) where
  batch : Batch
  rows : Nat → Row

namespace CompShape

variable (shape : CompShape)

/-- Row `idx` of the ring, the rows of the batch and the row of padding, one after another. -/
def sourceRow (nTokens : Nat) (state : Int → Row) (rows : Nat → Row) (pad : Row)
    (idx : Int) : Row :=
  if idx < shape.stateRows then state idx
  else if idx < shape.stateRows + nTokens then rows (idx - shape.stateRows).toNat
  else pad

/-- The first half of the indices of `ggml_ds4_comp`, block `b`. -/
def prevIdxs (plan : CompPlan) (b : Nat) : List Int :=
  if shape.overlap then (plan.stateReadIdxs.drop (shape.ratio * b)).take shape.ratio else []

/-- The indices of block `b` itself: the second half with overlap, all of them without. -/
def curIdxs (plan : CompPlan) (b : Nat) : List Int :=
  let half := if shape.overlap then plan.stateReadIdxs.length / 2 else 0
  ((plan.stateReadIdxs.drop half).drop (shape.ratio * b)).take shape.ratio

def stateWrites (feed : Feed Row) : List (Int × Row) :=
  let plan := shape.buildCompPlan feed.batch
  (plan.statePersistDstIdxs.zip plan.statePersistSrcIdxs).map fun p => (p.1, feed.rows p.2)

/-- The pooled blocks.  `pool` stands for the weighted sum, the norm and the rope at the
block's position. -/
def cacheWrites (pool : List Row → List Row → Int → Block) (pad : Row)
    (mem : CompMem Row Block) (feed : Feed Row) : List (Int × Block) :=
  let plan := shape.buildCompPlan feed.batch
  let source := shape.sourceRow feed.batch.length mem.state feed.rows pad
  (plan.stateWriteIdxs.zip plan.stateWritePos).zipIdx.map fun write =>
    (write.1.1, pool ((shape.prevIdxs plan write.2).map source)
      ((shape.curIdxs plan write.2).map source) write.1.2)

def decode (pool : List Row → List Row → Int → Block) (pad : Row) (mem : CompMem Row Block)
    (feed : Feed Row) : CompMem Row Block :=
  { state := scatter mem.state (shape.stateWrites feed)
    cache := scatter mem.cache (shape.cacheWrites pool pad mem feed) }

variable {shape}

theorem stateWrites_eq {feed : Feed Row}
    (planned : ¬ (shape.nStream ≤ 1 ∧ 1 < (batchUniqueSeqIds feed.batch).length)) :
    shape.stateWrites feed =
      ((shape.persistRows feed.batch).insertionSort fun a b => a.dst ≤ b.dst).map
        fun row => (row.dst, feed.rows row.src) := by
  simp only [stateWrites, buildCompPlan, if_neg planned, zip_map', map_map]
  rfl

end CompShape

/-- The rows of all positions so far, and the next position of each sequence. -/
structure History (Row : Type*) where
  next : Int → Int
  row : Int → Int → Row

def advance (next : Int → Int) (token : Token) : Int → Int :=
  fun seqId => if seqId ∈ token.seqs then token.pos + 1 else next seqId

def record (row : Int → Int → Row) (rows : Nat → Row) (batch : Batch) : Int → Int → Row :=
  batch.zipIdx.foldl
    (fun known entry => fun seqId pos =>
      if seqId ∈ entry.1.seqs ∧ entry.1.pos = pos then rows entry.2 else known seqId pos) row

def History.extend (history : History Row) (feed : Feed Row) : History Row :=
  ⟨feed.batch.foldl advance history.next, record history.row feed.rows feed.batch⟩

namespace CompShape

variable (shape : CompShape)

/-- Every token is in some stream, and goes on from the last position of each of its
sequences. -/
def Continues (next : Int → Int) : Batch → Prop
  | [] => True
  | token :: rest =>
    (∀ seqId ∈ token.seqs, 0 ≤ seqId ∧ seqId < shape.nStream ∧ next seqId = token.pos) ∧
    token.seqs ≠ [] ∧ token.pos < shape.kvSize * shape.ratio ∧
    Continues (advance next token) rest

instance (next : Int → Int) (batch : Batch) : Decidable (shape.Continues next batch) :=
  match batch with
  | [] => inferInstanceAs (Decidable True)
  | token :: rest =>
    have := instDecidableContinues (advance next token) rest
    inferInstanceAs (Decidable (_ ∧ _ ∧ _ ∧ _))

variable (pool : List Row → List Row → Int → Block) (pad : Row)

/-- The rows of `ratio` positions of a sequence; the row of padding before position 0. -/
def window (row : Int → Int → Row) (seqId start : Int) : List Row :=
  (List.range shape.ratio).map fun j : Nat =>
    if start + (j : Int) < 0 then pad else row seqId (start + j)

/-- Block `j` of a sequence. -/
def historyBlock (row : Int → Int → Row) (seqId j : Int) : Block :=
  pool (if shape.overlap then shape.window pad row seqId (j * shape.ratio - shape.ratio) else [])
    (shape.window pad row seqId (j * shape.ratio)) (j * shape.ratio)

end CompShape

structure Tracked (Row Block : Type*) where
  mem : CompMem Row Block
  history : History Row

def Tracked.step (shape : CompShape) (pool : List Row → List Row → Int → Block) (pad : Row)
    (tracked : Tracked Row Block) (feed : Feed Row) : Option (Tracked Row Block) :=
  some ⟨shape.decode pool pad tracked.mem feed,
    tracked.history.extend feed⟩

def Tracked.Accepts (shape : CompShape) (tracked : Tracked Row Block) (feed : Feed Row) : Prop :=
  shape.Continues tracked.history.next feed.batch

section Batches

variable {shape : CompShape}

variable {next : Int → Int} {batch : Batch} {entry : Token × Nat} {seqId : Int}

section

variable (continues : shape.Continues next batch)
include continues

theorem CompShape.Continues.next_le (seqId : Int) :
    next seqId ≤ batch.foldl advance next seqId := by
  induction batch generalizing next with
  | nil => exact le_refl _
  | cons token rest ih =>
    obtain ⟨owned, -, -, later⟩ := continues
    refine le_trans ?_ (ih later)
    rw [advance]
    split
    · rename_i inSeqs
      have := (owned seqId inSeqs).2.2
      omega
    · exact le_refl _

theorem CompShape.Continues.token {k : Nat}
    (member : entry ∈ batch.zipIdx k) (inSeqs : seqId ∈ entry.1.seqs) :
    (0 ≤ seqId ∧ seqId < shape.nStream) ∧ next seqId ≤ entry.1.pos ∧
      entry.1.pos < batch.foldl advance next seqId ∧
      entry.1.pos < shape.kvSize * shape.ratio := by
  induction batch generalizing next k with
  | nil => simp at member
  | cons token rest ih =>
    obtain ⟨owned, -, below, later⟩ := continues
    rcases mem_cons.mp member with rfl | inRest
    · obtain ⟨low, high, at_⟩ := owned seqId inSeqs
      refine ⟨⟨low, high⟩, le_of_eq at_, ?_, below⟩
      have grown := later.next_le seqId
      rw [advance, if_pos inSeqs] at grown
      exact Int.lt_of_add_one_le grown
    · obtain ⟨stream, low, high, bound⟩ := ih later inRest
      refine ⟨stream, le_trans ?_ low, high, bound⟩
      rw [advance]
      split
      · rename_i inHead
        have := (owned seqId inHead).2.2
        omega
      · exact le_refl _

theorem CompShape.Continues.single {k : Nat}
    {other : Token × Nat} (member : entry ∈ batch.zipIdx k) (member' : other ∈ batch.zipIdx k)
    (inSeqs : seqId ∈ entry.1.seqs) (inSeqs' : seqId ∈ other.1.seqs)
    (same : entry.1.pos = other.1.pos) : entry = other := by
  induction batch generalizing next k with
  | nil => simp at member
  | cons token rest ih =>
    obtain ⟨-, -, -, later⟩ := continues
    -- a token after the first one has a later position in each sequence they share
    have after : ∀ found ∈ rest.zipIdx (k + 1), seqId ∈ token.seqs → seqId ∈ found.1.seqs →
        token.pos < found.1.pos := by
      intro found inRest inHead inFound
      have low := (later.token inRest inFound).2.1
      rw [advance, if_pos inHead] at low
      exact Int.lt_of_add_one_le low
    rcases mem_cons.mp member with rfl | inRest
    · rcases mem_cons.mp member' with rfl | inRest'
      · rfl
      · exact absurd same (ne_of_lt (after other inRest' inSeqs inSeqs'))
    · rcases mem_cons.mp member' with rfl | inRest'
      · exact absurd same.symm (ne_of_lt (after entry inRest inSeqs' inSeqs))
      · exact ih later inRest inRest'

theorem CompShape.Continues.covered (k : Nat) {pos : Int}
    (low : next seqId ≤ pos) (high : pos < batch.foldl advance next seqId) :
    ∃ entry ∈ batch.zipIdx k, seqId ∈ entry.1.seqs ∧ entry.1.pos = pos := by
  induction batch generalizing next k with
  | nil => exact absurd high (not_lt.mpr low)
  | cons token rest ih =>
    obtain ⟨owned, -, -, later⟩ := continues
    by_cases here : seqId ∈ token.seqs ∧ token.pos = pos
    · exact ⟨(token, k), mem_cons_self, here.1, here.2⟩
    · have lowRest : advance next token seqId ≤ pos := by
        rw [advance]
        split
        · rename_i inSeqs
          have start := (owned seqId inSeqs).2.2
          have other : token.pos ≠ pos := fun at_ => here ⟨inSeqs, at_⟩
          omega
        · exact low
      obtain ⟨entry, member, found⟩ := ih later (k + 1) lowRest high
      exact ⟨entry, mem_cons_of_mem _ member, found⟩

end

theorem record_eq (row : Int → Int → Row) (rows : Nat → Row) (batch : Batch)
    (seqId pos : Int) :
    record row rows batch seqId pos =
      ((currTokenIdx batch seqId pos).map rows).getD (row seqId pos) := by
  unfold record currTokenIdx
  induction batch.zipIdx using List.reverseRecOn with
  | nil => rfl
  | append_singleton before entry ih =>
    simp only [foldl_append, foldl_cons, foldl_nil]
    split
    · rfl
    · exact ih

theorem CompShape.Continues.record_token (continues : shape.Continues next batch)
    (row : Int → Int → Row) (rows : Nat → Row) (member : entry ∈ batch.zipIdx)
    (inSeqs : seqId ∈ entry.1.seqs) : record row rows batch seqId entry.1.pos = rows entry.2 := by
  rw [record_eq]
  rcases currTokenIdx_cases batch seqId entry.1.pos with
    ⟨found, inBatch, inFound, at_, result⟩ | ⟨-, missed⟩
  · rw [result, continues.single inBatch member inFound inSeqs at_]
    rfl
  · exact absurd ⟨inSeqs, rfl⟩ (missed entry member)

theorem CompShape.Continues.record_old (continues : shape.Continues next batch)
    (row : Int → Int → Row) (rows : Nat → Row) {pos : Int} (old : pos < next seqId) :
    record row rows batch seqId pos = row seqId pos := by
  rw [record_eq]
  rcases currTokenIdx_cases batch seqId pos with
    ⟨found, inBatch, inFound, at_, -⟩ | ⟨result, -⟩
  · have low := (continues.token inBatch inFound).2.1
    omega
  · rw [result]
    rfl

end Batches

end LlamaCpp.Dsv4
