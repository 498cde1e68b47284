import LlamaCpp.Lib.Run
import Mathlib.Data.List.Basic
import Mathlib.Data.List.Pairwise

/-!
# Tokens with media

`ServerTokens` holds a list of tokens and a map from the index where a media chunk begins to
the chunk, whose tokens are all `LLAMA_TOKEN_NULL`.  The two are in sync when these are the
runs of the chunks.  Clearing, shrinking and inserting change the tokens alone, and appending
tokens with media throws at the first null token.
-/

set_option autoImplicit false

namespace LlamaCpp.Server

open LlamaCpp.Lib List

def tokenNull : Int := -1

/-- A media chunk of `mtmd_input_chunk`, which takes up at least one token. -/
structure MediaChunk where
  id : String
  nTokens : Nat
  nTokens_pos : 0 < nTokens
deriving DecidableEq

inductive InputChunk
  | media (chunk : MediaChunk)
  | text (tokens : List Int)

/-- `server_tokens`; the map is in the order of its keys. -/
structure ServerTokens where
  hasMtmd : Bool
  mapIdxToMedia : List (Nat × MediaChunk)
  tokens : List Int
deriving DecidableEq

/-- How an operation ends; an exception leaves an object behind, an assertion does not. -/
inductive OpResult
  | returned (s : ServerTokens)
  | threw (s : ServerTokens) (message : String)
  | aborted
deriving DecidableEq

def OpResult.bind (result : OpResult) (next : ServerTokens → OpResult) : OpResult :=
  match result with
  | .returned s => next s
  | .threw s message => .threw s message
  | .aborted => .aborted

/-- The assignment `map_idx_to_media[idx] = chunk`. -/
def setMedia {χ : Type*} (idx : Nat) (chunk : χ) : List (Nat × χ) → List (Nat × χ)
  | [] => [(idx, chunk)]
  | entry :: rest =>
    if idx < entry.1 then (idx, chunk) :: entry :: rest
    else if idx = entry.1 then (idx, chunk) :: rest
    else entry :: setMedia idx chunk rest

def setAll {χ : Type*} (more entries : List (Nat × χ)) : List (Nat × χ) :=
  more.foldl (fun entries entry => setMedia entry.1 entry.2 entries) entries

namespace ServerTokens

variable (s : ServerTokens)

def pushToken (tok : Int) : OpResult :=
  if tok = tokenNull then .threw s "Invalid token"
  else .returned { s with tokens := s.tokens ++ [tok] }

/-- A loop over `push_back`. -/
def pushTokens : List Int → ServerTokens → OpResult
  | [], s => .returned s
  | tok :: rest, s => (s.pushToken tok).bind (pushTokens rest)

def pushChunk : InputChunk → OpResult
  | .media chunk =>
    if s.hasMtmd then
      .returned { s with
        tokens := s.tokens ++ List.replicate chunk.nTokens tokenNull
        mapIdxToMedia := setMedia s.tokens.length chunk s.mapIdxToMedia }
    else .aborted
  | .text tokens => pushTokens tokens s

/-- `push_back` of other server tokens. -/
def append (other : ServerTokens) : OpResult :=
  (pushTokens other.tokens s).bind fun pushed =>
    let media := other.mapIdxToMedia.map fun entry => (s.tokens.length + entry.1, entry.2)
    if other.hasMtmd then
      if pushed.hasMtmd then
        .returned { pushed with mapIdxToMedia := setAll media pushed.mapIdxToMedia }
      else .aborted
    else .returned pushed

def insert (inpTokens : List Int) : OpResult :=
  if s.hasMtmd then .aborted else .returned { s with tokens := s.tokens ++ inpTokens }

/-- `resize`; `std::vector::resize` fills with zeros. -/
def resize (size : Nat) : ServerTokens :=
  { s with tokens := s.tokens.take size ++ List.replicate (size - s.tokens.length) 0 }

def clear : ServerTokens := { s with tokens := [] }

/-- `find_chunk`, which throws without a result. -/
def findChunk (idx : Nat) : Option MediaChunk := s.mapIdxToMedia.lookup idx

def keepFirst (n : Nat) : OpResult :=
  if s.tokens.length < n then .aborted
  else if s.hasMtmd then
    if n = s.tokens.length then .returned s
    else if s.tokens.getD n 0 = tokenNull ∧ s.findChunk n = none then
      .threw s "Chunk not found, or idx is not the first token of a chunk"
    else
      .returned { s with
        tokens := s.tokens.take n
        mapIdxToMedia := s.mapIdxToMedia.filter fun entry => decide (entry.1 < n) }
  else .returned { s with tokens := s.tokens.take n }

/-- `discard_n_tokens`; a negative `nKeep` is a huge size for `keep_first`. -/
def discardNTokens (nKeep nDiscard : Int) : OpResult :=
  if nDiscard ≤ 0 ∨ (s.tokens.length : Int) ≤ nKeep + nDiscard then .returned s
  else if nKeep < 0 then .aborted
  else
    let first := nKeep.toNat
    let gap := nDiscard.toNat
    (s.keepFirst first).bind fun kept =>
      let later := s.mapIdxToMedia.filter fun entry => decide (first + gap ≤ entry.1)
      let media := later.map fun entry => (entry.1 - gap, entry.2)
      .returned { kept with
        tokens := kept.tokens ++ s.tokens.drop (first + gap)
        mapIdxToMedia := setAll media kept.mapIdxToMedia }

end ServerTokens

inductive TokensOp
  | pushToken (tok : Int)
  | pushChunk (chunk : InputChunk)
  | append (other : ServerTokens)
  | insert (inpTokens : List Int)
  | resize (size : Nat)
  | clear
  | keepFirst (n : Nat)
  | discardNTokens (nKeep nDiscard : Int)

def TokensOp.apply (s : ServerTokens) : TokensOp → OpResult
  | .pushToken tok => s.pushToken tok
  | .pushChunk chunk => s.pushChunk chunk
  | .append other => s.append other
  | .insert inpTokens => s.insert inpTokens
  | .resize size => .returned (s.resize size)
  | .clear => .returned s.clear
  | .keepFirst n => s.keepFirst n
  | .discardNTokens nKeep nDiscard => s.discardNTokens nKeep nDiscard

def tokensStep (s : ServerTokens) (op : TokensOp) : Option ServerTokens :=
  match op.apply s with
  | .returned next => some next
  | .threw next _ => some next
  | .aborted => none

structure InSync (tokens : List Int) (media : List (Nat × MediaChunk)) : Prop where
  nulls : ∀ pos, tokens[pos]? = some tokenNull ↔
    ∃ entry ∈ media, entry.1 ≤ pos ∧ pos < entry.1 + entry.2.nTokens
  disjoint : media.Pairwise fun earlier later => earlier.1 + earlier.2.nTokens ≤ later.1

/-- No run has `pos` strictly inside it. -/
def AtBoundary (media : List (Nat × MediaChunk)) (pos : Nat) : Prop :=
  ∀ entry ∈ media, pos ≤ entry.1 ∨ entry.1 + entry.2.nTokens ≤ pos

section Sync

variable {tokens more : List Int} {media laterMedia : List (Nat × MediaChunk)} {pos : Nat}

theorem InSync.empty : InSync [] [] := ⟨by simp, .nil⟩

theorem InSync.of_text (text : tokenNull ∉ tokens) : InSync tokens [] := by
  refine ⟨fun pos => ?_, .nil⟩
  constructor
  · intro atPos
    exact absurd (mem_of_getElem? atPos) text
  · rintro ⟨entry, impossible, -⟩
    exact absurd impossible not_mem_nil

theorem InSync.of_chunk (chunk : MediaChunk) :
    InSync (List.replicate chunk.nTokens tokenNull) [(0, chunk)] := by
  refine ⟨fun pos => ?_, pairwise_singleton _ _⟩
  simp [List.getElem?_replicate]

theorem InSync.end_le (sync : InSync tokens media) {entry : Nat × MediaChunk}
    (mem : entry ∈ media) : entry.1 + entry.2.nTokens ≤ tokens.length := by
  have positive := entry.2.nTokens_pos
  have last := (sync.nulls (entry.1 + entry.2.nTokens - 1)).mpr ⟨entry, mem, by omega, by omega⟩
  have := (List.getElem?_eq_some_iff.mp last).1
  omega

theorem InSync.no_media (sync : InSync tokens media) (text : tokenNull ∉ tokens) : media = [] := by
  refine eq_nil_iff_forall_not_mem.mpr fun entry mem => text ?_
  have positive := entry.2.nTokens_pos
  exact mem_of_getElem? ((sync.nulls entry.1).mpr ⟨entry, mem, Nat.le_refl _, by omega⟩)

theorem InSync.text_of_no_media (sync : InSync tokens []) : tokenNull ∉ tokens := by
  intro mem
  obtain ⟨pos, atPos⟩ := mem_iff_getElem?.mp mem
  obtain ⟨entry, impossible, -⟩ := (sync.nulls pos).mp atPos
  exact absurd impossible not_mem_nil

section

variable (sync : InSync tokens media)
include sync

theorem InSync.concat (later : InSync more laterMedia) :
    InSync (tokens ++ more)
      (media ++ laterMedia.map fun entry => (tokens.length + entry.1, entry.2)) := by
  refine ⟨fun pos => ?_, ?_⟩
  · rcases Nat.lt_or_ge pos tokens.length with inside | beyond
    · rw [List.getElem?_append_left inside, sync.nulls]
      constructor
      · rintro ⟨entry, mem, run⟩
        exact ⟨entry, mem_append_left _ mem, run⟩
      · rintro ⟨entry, mem, run⟩
        rcases mem_append.mp mem with old | new
        · exact ⟨entry, old, run⟩
        · obtain ⟨original, -, rfl⟩ := mem_map.mp new
          omega
    · rw [List.getElem?_append_right beyond, later.nulls]
      constructor
      · rintro ⟨entry, mem, run⟩
        refine ⟨_, mem_append_right _ (mem_map_of_mem mem), ?_⟩
        dsimp only
        omega
      · rintro ⟨entry, mem, run⟩
        rcases mem_append.mp mem with old | new
        · have := sync.end_le old
          omega
        · obtain ⟨original, inLater, rfl⟩ := mem_map.mp new
          dsimp only at run
          exact ⟨original, inLater, by omega⟩
  · refine pairwise_append.mpr ⟨sync.disjoint, ?_, ?_⟩
    · refine pairwise_map.mpr (later.disjoint.imp fun before => ?_)
      dsimp only
      omega
    · intro entry mem other inLater
      obtain ⟨original, -, rfl⟩ := mem_map.mp inLater
      have := sync.end_le mem
      omega

theorem InSync.apart {one other : Nat × MediaChunk}
    (oneMem : one ∈ media) (otherMem : other ∈ media) (different : one ≠ other) :
    one.1 + one.2.nTokens ≤ other.1 ∨ other.1 + other.2.nTokens ≤ one.1 := by
  let Apart (one other : Nat × MediaChunk) : Prop :=
    one.1 + one.2.nTokens ≤ other.1 ∨ other.1 + other.2.nTokens ≤ one.1
  have : Std.Symm Apart := ⟨fun _ _ => Or.symm⟩
  have pairwise : media.Pairwise Apart := sync.disjoint.imp Or.inl
  exact pairwise.forall oneMem otherMem different

theorem InSync.take (boundary : AtBoundary media pos) :
    InSync (tokens.take pos) (media.filter fun entry => decide (entry.1 < pos)) := by
  refine ⟨fun place => ?_, sync.disjoint.filter _⟩
  simp only [mem_filter, decide_eq_true_eq]
  rcases Nat.lt_or_ge place pos with inside | beyond
  · rw [List.getElem?_take_of_lt inside, sync.nulls]
    constructor
    · rintro ⟨entry, mem, run⟩
      exact ⟨entry, ⟨mem, by omega⟩, run⟩
    · rintro ⟨entry, mem, run⟩
      exact ⟨entry, mem.1, run⟩
  · constructor
    · intro atPlace
      rw [List.getElem?_take_eq_none beyond] at atPlace
      contradiction
    · rintro ⟨entry, mem, run⟩
      have := boundary entry mem.1
      omega

theorem InSync.drop (boundary : AtBoundary media pos) :
    InSync (tokens.drop pos) ((media.filter fun entry => decide (pos ≤ entry.1)).map
      fun entry => (entry.1 - pos, entry.2)) := by
  refine ⟨fun place => ?_, ?_⟩
  · rw [List.getElem?_drop, sync.nulls]
    constructor
    · rintro ⟨entry, mem, run⟩
      have starts : pos ≤ entry.1 := by
        have := boundary entry mem
        omega
      refine ⟨_, mem_map_of_mem (mem_filter.mpr ⟨mem, decide_eq_true starts⟩), ?_⟩
      dsimp only
      omega
    · rintro ⟨entry, mem, run⟩
      obtain ⟨original, kept, rfl⟩ := mem_map.mp mem
      simp only [mem_filter, decide_eq_true_eq] at kept
      dsimp only at run
      exact ⟨original, kept.1, by omega⟩
  · refine pairwise_map.mpr (List.Pairwise.imp_of_mem ?_ (sync.disjoint.filter _))
    intro earlier later earlierKept laterKept before
    simp only [mem_filter, decide_eq_true_eq] at earlierKept
    dsimp only
    omega

end

end Sync

variable {χ : Type*} {entries : List (Nat × χ)}

theorem setMedia_append (idx : Nat) (chunk : χ) (entries : List (Nat × χ))
    (before : ∀ entry ∈ entries, entry.1 < idx) :
    setMedia idx chunk entries = entries ++ [(idx, chunk)] := by
  induction entries with
  | nil => rfl
  | cons entry rest ih =>
    have first := before entry mem_cons_self
    rw [setMedia, if_neg (by omega), if_neg (by omega),
      ih fun other mem => before other (mem_cons_of_mem _ mem), cons_append]

theorem mem_setMedia {idx : Nat} {chunk : χ} {entry : Nat × χ}
    (mem : entry ∈ setMedia idx chunk entries) : entry = (idx, chunk) ∨ entry ∈ entries := by
  induction entries with
  | nil => exact .inl (mem_singleton.mp mem)
  | cons first rest ih =>
    rw [setMedia] at mem
    split_ifs at mem
    · exact mem_cons.mp mem
    · exact (mem_cons.mp mem).imp_right (mem_cons_of_mem _)
    · rcases mem_cons.mp mem with same | inRest
      · exact .inr (same ▸ mem_cons_self)
      · exact (ih inRest).imp_right (mem_cons_of_mem _)

theorem setMedia_ordered (idx : Nat) (chunk : χ)
    (ordered : entries.Pairwise fun earlier later => earlier.1 < later.1) :
    (setMedia idx chunk entries).Pairwise fun earlier later => earlier.1 < later.1 := by
  induction entries with
  | nil => exact pairwise_singleton _ _
  | cons first rest ih =>
    obtain ⟨firstLess, restOrdered⟩ := pairwise_cons.mp ordered
    rw [setMedia]
    split_ifs with before same
    · refine pairwise_cons.mpr ⟨fun entry mem => ?_, ordered⟩
      rcases mem_cons.mp mem with isFirst | inRest
      · rw [isFirst]
        exact before
      · exact Nat.lt_trans before (firstLess entry inRest)
    · exact pairwise_cons.mpr ⟨fun entry mem => same ▸ firstLess entry mem, restOrdered⟩
    · refine pairwise_cons.mpr ⟨fun entry mem => ?_, ih restOrdered⟩
      rcases mem_setMedia mem with isNew | inRest
      · rw [isNew]
        omega
      · exact firstLess entry inRest

theorem setAll_ordered (more : List (Nat × χ))
    (ordered : entries.Pairwise fun earlier later => earlier.1 < later.1) :
    (setAll more entries).Pairwise fun earlier later => earlier.1 < later.1 := by
  induction more generalizing entries with
  | nil => exact ordered
  | cons entry rest ih => exact ih (setMedia_ordered entry.1 entry.2 ordered)

theorem mem_setAll {more : List (Nat × χ)} {entry : Nat × χ} (mem : entry ∈ setAll more entries) :
    entry ∈ more ∨ entry ∈ entries := by
  induction more generalizing entries with
  | nil => exact .inr mem
  | cons first rest ih =>
    rcases ih mem with inRest | assigned
    · exact .inl (mem_cons_of_mem _ inRest)
    · refine (mem_setMedia assigned).imp_left fun same => ?_
      rw [same]
      exact mem_cons_self

theorem setAll_append (more entries : List (Nat × χ))
    (growing : more.Pairwise fun earlier later => earlier.1 < later.1)
    (before : ∀ entry ∈ entries, ∀ later ∈ more, entry.1 < later.1) :
    setAll more entries = entries ++ more := by
  induction more generalizing entries with
  | nil => simp [setAll]
  | cons first rest ih =>
    obtain ⟨firstLess, restGrowing⟩ := pairwise_cons.mp growing
    have assigned := setMedia_append first.1 first.2 entries
      fun entry mem => before entry mem first mem_cons_self
    have step : setAll (first :: rest) entries = setAll rest (entries ++ [first]) := by
      rw [setAll, foldl_cons, assigned]
      rfl
    rw [step, ih _ restGrowing, append_assoc, singleton_append]
    intro entry mem later inRest
    rcases mem_append.mp mem with old | new
    · exact before entry old later (mem_cons_of_mem _ inRest)
    · rw [mem_singleton.mp new]
      exact firstLess later inRest

theorem pushTokens_text (tokens : List Int) (s : ServerTokens) (text : tokenNull ∉ tokens) :
    ServerTokens.pushTokens tokens s = .returned { s with tokens := s.tokens ++ tokens } := by
  induction tokens generalizing s with
  | nil => simp [ServerTokens.pushTokens]
  | cons tok rest ih =>
    obtain ⟨notNull, restText⟩ := not_or.mp (mt mem_cons.mpr text)
    rw [ServerTokens.pushTokens, ServerTokens.pushToken, if_neg (Ne.symm notNull),
      OpResult.bind, ih _ restText]
    simp

theorem pushTokens_null (tokens : List Int) (s : ServerTokens) (mem : tokenNull ∈ tokens) :
    ∃ before rest, tokens = before ++ tokenNull :: rest ∧ tokenNull ∉ before ∧
      ServerTokens.pushTokens tokens s =
        .threw { s with tokens := s.tokens ++ before } "Invalid token" := by
  induction tokens generalizing s with
  | nil => exact absurd mem not_mem_nil
  | cons tok rest ih =>
    by_cases isNull : tok = tokenNull
    · refine ⟨[], rest, by rw [isNull, nil_append], not_mem_nil, ?_⟩
      rw [ServerTokens.pushTokens, ServerTokens.pushToken, if_pos isNull, OpResult.bind,
        append_nil]
    · have inRest : tokenNull ∈ rest := (mem_cons.mp mem).resolve_left (Ne.symm isNull)
      obtain ⟨before, after, shape, text, result⟩ :=
        ih { s with tokens := s.tokens ++ [tok] } inRest
      refine ⟨tok :: before, after, by rw [shape, cons_append],
        mt mem_cons.mp (not_or.mpr ⟨Ne.symm isNull, text⟩), ?_⟩
      rw [ServerTokens.pushTokens, ServerTokens.pushToken, if_neg isNull, OpResult.bind, result]
      simp

/-- The tokens and the map are in sync, and there is no media without the projector. -/
structure ServerTokens.Coherent (s : ServerTokens) : Prop where
  sync : InSync s.tokens s.mapIdxToMedia
  noMedia : s.hasMtmd = false → s.mapIdxToMedia = []

def TokensOp.Allowed (s : ServerTokens) : TokensOp → Prop
  | .append other => other.Coherent
  | .discardNTokens nKeep nDiscard =>
    AtBoundary s.mapIdxToMedia nKeep.toNat ∧ AtBoundary s.mapIdxToMedia (nKeep + nDiscard).toNat
  | _ => True

/-- A result in sync, which for an append is the concatenation; an exception leaves the object
as it was, and an append throws none.  The assertions on `has_mtmd` and on sizes may abort. -/
def TokensOp.Keeps (s : ServerTokens) (op : TokensOp) : Prop :=
  match op.apply s with
  | .returned next => InSync next.tokens next.mapIdxToMedia ∧ ∀ other, op = .append other →
      next.tokens = s.tokens ++ other.tokens ∧ next.mapIdxToMedia = s.mapIdxToMedia ++
        other.mapIdxToMedia.map fun entry => (s.tokens.length + entry.1, entry.2)
  | .threw next _ => next = s ∧ ∀ other, op ≠ .append other
  | .aborted => True

/-- Nothing with a null token is appended or inserted, and neither `clear` nor `resize` removes a
token of a chunk. -/
def TokensOp.Meets (s : ServerTokens) : TokensOp → Prop
  | .pushToken _ => True
  | .pushChunk (.media _) => True
  | .pushChunk (.text tokens) => tokenNull ∈ tokens → tokens.head? = some tokenNull
  | .append other => tokenNull ∉ other.tokens
  | .insert inpTokens => s.hasMtmd = false → tokenNull ∉ inpTokens
  | .resize size => ∀ entry ∈ s.mapIdxToMedia, entry.1 + entry.2.nTokens ≤ size
  | .clear => s.mapIdxToMedia = []
  | .keepFirst _ => True
  | .discardNTokens _ _ => True

section Operations

variable {s : ServerTokens}

theorem InSync.append_text {tokens more : List Int} {media : List (Nat × MediaChunk)}
    (sync : InSync tokens media) (text : tokenNull ∉ more) : InSync (tokens ++ more) media := by
  simpa using sync.concat (.of_text text)

theorem InSync.keys_lt {tokens : List Int} {media : List (Nat × MediaChunk)}
    (sync : InSync tokens media) {entry : Nat × MediaChunk} (mem : entry ∈ media) :
    entry.1 < tokens.length := by
  have := sync.end_le mem
  have := entry.2.nTokens_pos
  omega

theorem InSync.keys_growing {tokens : List Int} {media : List (Nat × MediaChunk)}
    (sync : InSync tokens media) :
    media.Pairwise fun earlier later => earlier.1 < later.1 := by
  refine sync.disjoint.imp fun {earlier later} before => ?_
  have := earlier.2.nTokens_pos
  omega

section

variable (coherent : s.Coherent)
include coherent

theorem pushToken_keeps (tok : Int) :
    (TokensOp.pushToken tok).Keeps s := by
  rw [TokensOp.Keeps, TokensOp.apply, ServerTokens.pushToken]
  by_cases isNull : tok = tokenNull
  · rw [if_pos isNull]
    exact ⟨rfl, fun _ => TokensOp.noConfusion⟩
  · rw [if_neg isNull]
    refine ⟨coherent.sync.append_text ?_, fun _ => TokensOp.noConfusion⟩
    simpa using Ne.symm isNull

theorem pushMedia_keeps (chunk : MediaChunk) :
    (TokensOp.pushChunk (.media chunk)).Keeps s := by
  rw [TokensOp.Keeps, TokensOp.apply, ServerTokens.pushChunk]
  by_cases enabled : s.hasMtmd = true
  · rw [if_pos enabled]
    rw [setMedia_append _ _ _ fun entry mem => coherent.sync.keys_lt mem]
    simpa using coherent.sync.concat (.of_chunk chunk)
  · rw [if_neg enabled]
    trivial

theorem pushText_keeps (tokens : List Int) :
    (TokensOp.pushChunk (.text tokens)).Keeps s ↔
      (tokenNull ∈ tokens → tokens.head? = some tokenNull) := by
  rw [TokensOp.Keeps, TokensOp.apply, ServerTokens.pushChunk]
  by_cases mem : tokenNull ∈ tokens
  · obtain ⟨before, rest, shape, text, result⟩ := pushTokens_null tokens s mem
    rw [result]
    constructor
    · rintro ⟨unchanged, -⟩ -
      have nothing : before = [] :=
        append_right_eq_self.mp (congrArg ServerTokens.tokens unchanged)
      rw [shape, nothing]
      rfl
    · intro headNull
      refine ⟨?_, fun _ => TokensOp.noConfusion⟩
      have nothing : before = [] := by
        cases before with
        | nil => rfl
        | cons first _ =>
          have isNull := headNull mem
          rw [shape, cons_append, List.head?_cons, Option.some.injEq] at isNull
          exact absurd (isNull ▸ mem_cons_self) text
      rw [nothing, append_nil]
  · rw [pushTokens_text tokens s mem]
    exact iff_of_true ⟨coherent.sync.append_text mem, fun _ => TokensOp.noConfusion⟩
      fun impossible => absurd impossible mem

theorem append_keeps {other : ServerTokens} (well : other.Coherent) :
    (TokensOp.append other).Keeps s ↔ tokenNull ∉ other.tokens := by
  rw [TokensOp.Keeps, TokensOp.apply, ServerTokens.append]
  by_cases mem : tokenNull ∈ other.tokens
  · obtain ⟨before, rest, -, -, result⟩ := pushTokens_null other.tokens s mem
    rw [result]
    exact iff_of_false (fun kept => kept.2 other rfl) (not_not_intro mem)
  · have noMedia := well.sync.no_media mem
    have concatenation : InSync (s.tokens ++ other.tokens) s.mapIdxToMedia ∧
        ∀ operand, TokensOp.append other = .append operand →
          s.tokens ++ other.tokens = s.tokens ++ operand.tokens ∧
          s.mapIdxToMedia = s.mapIdxToMedia ++ operand.mapIdxToMedia.map
            fun entry => (s.tokens.length + entry.1, entry.2) := by
      refine ⟨coherent.sync.append_text mem, fun operand same => ?_⟩
      cases same
      rw [noMedia]
      simp
    refine iff_of_true ?_ mem
    rw [pushTokens_text _ s mem, OpResult.bind, noMedia]
    by_cases enabled : other.hasMtmd = true
    · rw [if_pos enabled]
      by_cases accepted : s.hasMtmd = true
      · rw [if_pos accepted]
        exact concatenation
      · rw [if_neg accepted]
        trivial
    · rw [if_neg enabled]
      exact concatenation

theorem insert_keeps (inpTokens : List Int) :
    (TokensOp.insert inpTokens).Keeps s ↔ (s.hasMtmd = false → tokenNull ∉ inpTokens) := by
  rw [TokensOp.Keeps, TokensOp.apply, ServerTokens.insert]
  cases enabled : s.hasMtmd with
  | true =>
    exact iff_of_true trivial fun impossible => absurd impossible.symm Bool.false_ne_true
  | false =>
    have sync := coherent.sync
    rw [coherent.noMedia enabled] at sync ⊢
    constructor
    · rintro ⟨kept, -⟩ -
      exact fun mem => kept.text_of_no_media (mem_append_right _ mem)
    · exact fun text => ⟨sync.append_text (text rfl), fun _ => TokensOp.noConfusion⟩

end

theorem clear_keeps (s : ServerTokens) :
    TokensOp.clear.Keeps s ↔ s.mapIdxToMedia = [] := by
  rw [TokensOp.Keeps, TokensOp.apply, ServerTokens.clear]
  constructor
  · rintro ⟨kept, -⟩
    exact kept.no_media not_mem_nil
  · intro noMedia
    rw [noMedia]
    exact ⟨.empty, fun _ => TokensOp.noConfusion⟩

theorem resize_keeps (coherent : s.Coherent) (size : Nat) :
    (TokensOp.resize size).Keeps s ↔
      ∀ entry ∈ s.mapIdxToMedia, entry.1 + entry.2.nTokens ≤ size := by
  rw [TokensOp.Keeps, TokensOp.apply, ServerTokens.resize]
  constructor
  · rintro ⟨kept, -⟩ entry mem
    have positive := entry.2.nTokens_pos
    by_contra beyond
    -- The last position of the run holds a zero or nothing.
    have last := (kept.nulls (entry.1 + entry.2.nTokens - 1)).mpr
      ⟨entry, mem, by omega, by omega⟩
    have ends := coherent.sync.end_le mem
    have padding : size - s.tokens.length = 0 := by omega
    rw [padding, replicate_zero, append_nil,
      List.getElem?_take_eq_none (by omega)] at last
    contradiction
  · intro inside
    have boundary : AtBoundary s.mapIdxToMedia size := fun entry mem => .inr (inside entry mem)
    have kept := coherent.sync.take boundary
    have everything : s.mapIdxToMedia.filter (fun entry => decide (entry.1 < size)) =
        s.mapIdxToMedia := by
      refine filter_eq_self.mpr fun entry mem => decide_eq_true ?_
      have := inside entry mem
      have := entry.2.nTokens_pos
      omega
    rw [everything] at kept
    refine ⟨kept.append_text fun mem => ?_, fun _ => TokensOp.noConfusion⟩
    exact absurd (eq_of_mem_replicate mem) (by simp [tokenNull])

theorem findChunk_eq_none {idx : Nat} :
    s.findChunk idx = none ↔ ∀ entry ∈ s.mapIdxToMedia, entry.1 ≠ idx := by
  rw [ServerTokens.findChunk, lookup_eq_none_iff]
  exact forall₂_congr fun entry _ => by rw [bne_iff_ne, ne_comm]

/-- `keep_first` throws exactly inside a chunk. -/
theorem atBoundary_iff (sync : InSync s.tokens s.mapIdxToMedia) (n : Nat) :
    AtBoundary s.mapIdxToMedia n ↔ ¬(s.tokens.getD n 0 = tokenNull ∧ s.findChunk n = none) := by
  have isNull : s.tokens.getD n 0 = tokenNull ↔ s.tokens[n]? = some tokenNull := by
    rw [getD_eq_getElem?_getD]
    cases s.tokens[n]? with
    | none => simp [tokenNull]
    | some tok => simp
  rw [isNull, sync.nulls, findChunk_eq_none]
  constructor
  · rintro boundary ⟨⟨entry, mem, run⟩, missing⟩
    have := boundary entry mem
    have := missing entry mem
    omega
  · intro begins entry mem
    by_contra strictly
    refine begins ⟨⟨entry, mem, by omega, by omega⟩, fun other otherMem start => ?_⟩
    have apart := sync.apart mem otherMem fun same => by
      rw [same] at strictly
      omega
    omega

theorem keepFirst_eq (coherent : s.Coherent) {n : Nat} (boundary : AtBoundary s.mapIdxToMedia n)
    (fits : n ≤ s.tokens.length) :
    s.keepFirst n = .returned { s with
      tokens := s.tokens.take n
      mapIdxToMedia := s.mapIdxToMedia.filter fun entry => decide (entry.1 < n) } := by
  rw [ServerTokens.keepFirst, if_neg (Nat.not_lt.mpr fits)]
  cases enabled : s.hasMtmd with
  | false =>
    rw [coherent.noMedia enabled]
    rfl
  | true =>
    rw [if_pos rfl]
    by_cases whole : n = s.tokens.length
    · have everything : s.mapIdxToMedia.filter (fun entry => decide (entry.1 < n)) =
          s.mapIdxToMedia :=
        filter_eq_self.mpr fun entry mem =>
          decide_eq_true (whole ▸ coherent.sync.keys_lt mem)
      rw [if_pos whole, everything, whole, take_length, ← enabled]
    · rw [if_neg whole, if_neg ((atBoundary_iff coherent.sync n).mp boundary)]

theorem keepFirst_keeps (coherent : s.Coherent) (n : Nat) : (TokensOp.keepFirst n).Keeps s := by
  rw [TokensOp.Keeps, TokensOp.apply]
  rcases Nat.lt_or_ge s.tokens.length n with beyond | fits
  · rw [ServerTokens.keepFirst, if_pos beyond]
    trivial
  by_cases boundary : AtBoundary s.mapIdxToMedia n
  · rw [keepFirst_eq coherent boundary fits]
    exact ⟨coherent.sync.take boundary, fun _ => TokensOp.noConfusion⟩
  · have inside := not_not.mp (mt (atBoundary_iff coherent.sync n).mpr boundary)
    have enabled : s.hasMtmd = true := by
      by_contra disabled
      rw [coherent.noMedia (Bool.not_eq_true _ ▸ disabled)] at boundary
      exact boundary fun _ impossible => absurd impossible not_mem_nil
    have notWhole : n ≠ s.tokens.length := fun whole =>
      boundary fun entry mem => .inr (whole ▸ coherent.sync.end_le mem)
    rw [ServerTokens.keepFirst, if_neg (Nat.not_lt.mpr fits), if_pos enabled, if_neg notWhole,
      if_pos inside]
    exact ⟨rfl, fun _ => TokensOp.noConfusion⟩

theorem discardNTokens_keeps (coherent : s.Coherent) {nKeep nDiscard : Int}
    (keepBoundary : AtBoundary s.mapIdxToMedia nKeep.toNat)
    (discardBoundary : AtBoundary s.mapIdxToMedia (nKeep + nDiscard).toNat) :
    (TokensOp.discardNTokens nKeep nDiscard).Keeps s := by
  rw [TokensOp.Keeps, TokensOp.apply]
  unfold ServerTokens.discardNTokens
  by_cases nothing : nDiscard ≤ 0 ∨ (s.tokens.length : Int) ≤ nKeep + nDiscard
  · rw [if_pos nothing]
    exact ⟨coherent.sync, fun _ => TokensOp.noConfusion⟩
  by_cases negative : nKeep < 0
  · rw [if_neg nothing, if_pos negative]
    trivial
  have total : (nKeep + nDiscard).toNat = nKeep.toNat + nDiscard.toNat := by omega
  rw [total] at discardBoundary
  have kept := coherent.sync.take keepBoundary
  have rest := kept.concat (coherent.sync.drop discardBoundary)
  rw [length_take, Nat.min_eq_left (by omega), map_map] at rest
  rw [if_neg nothing, if_neg negative]
  dsimp only
  rw [keepFirst_eq coherent keepBoundary (by omega)]
  refine ⟨?_, fun _ => TokensOp.noConfusion⟩
  generalize nKeep.toNat = first at *
  generalize nDiscard.toNat = gap at *
  have shifted : ((s.mapIdxToMedia.filter fun entry => decide (first + gap ≤ entry.1)).map
      fun entry => (entry.1 - gap, entry.2)) =
      (s.mapIdxToMedia.filter fun entry => decide (first + gap ≤ entry.1)).map
        ((fun entry => (first + entry.1, entry.2)) ∘
          fun entry => (entry.1 - (first + gap), entry.2)) := by
    refine map_congr_left fun entry mem => ?_
    have := of_decide_eq_true (mem_filter.mp mem).2
    simp only [Function.comp_apply, Prod.mk.injEq, and_true]
    omega
  rw [shifted]
  have growing := rest.keys_growing
  obtain ⟨-, laterGrowing, between⟩ := pairwise_append.mp growing
  rw [setAll_append _ _ laterGrowing between]
  exact rest

theorem keeps_iff_meets (coherent : s.Coherent) {op : TokensOp} (allowed : op.Allowed s) :
    op.Keeps s ↔ op.Meets s := by
  cases op with
  | pushToken tok => exact iff_of_true (pushToken_keeps coherent tok) trivial
  | pushChunk chunk =>
    cases chunk with
    | media chunk => exact iff_of_true (pushMedia_keeps coherent chunk) trivial
    | text tokens => exact pushText_keeps coherent tokens
  | append other => exact append_keeps coherent allowed
  | insert inpTokens => exact insert_keeps coherent inpTokens
  | resize size => exact resize_keeps coherent size
  | clear => exact clear_keeps s
  | keepFirst n => exact iff_of_true (keepFirst_keeps coherent n) trivial
  | discardNTokens nKeep nDiscard =>
    exact iff_of_true (discardNTokens_keeps coherent allowed.1 allowed.2) trivial

end Operations

def OpResult.Leaves (Holds : ServerTokens → Prop) : OpResult → Prop
  | .returned s => Holds s
  | .threw s _ => Holds s
  | .aborted => True

theorem OpResult.Leaves.bind {First Holds : ServerTokens → Prop} {result : OpResult}
    {next : ServerTokens → OpResult} (left : result.Leaves First)
    (threw : ∀ s, First s → Holds s) (continues : ∀ s, First s → (next s).Leaves Holds) :
    (result.bind next).Leaves Holds := by
  cases result with
  | returned s => exact continues s left
  | threw s message => exact threw s left
  | aborted => trivial

def OnlyTokens (s next : ServerTokens) : Prop :=
  next.hasMtmd = s.hasMtmd ∧ (s.hasMtmd = false → s.mapIdxToMedia = [] → next.mapIdxToMedia = [])

theorem pushTokens_onlyTokens (tokens : List Int) (s : ServerTokens) :
    (ServerTokens.pushTokens tokens s).Leaves (OnlyTokens s) := by
  by_cases mem : tokenNull ∈ tokens
  · obtain ⟨before, rest, -, -, result⟩ := pushTokens_null tokens s mem
    rw [result]
    exact ⟨rfl, fun _ noMedia => noMedia⟩
  · rw [pushTokens_text tokens s mem]
    exact ⟨rfl, fun _ noMedia => noMedia⟩

theorem keepFirst_onlyTokens (n : Nat) (s : ServerTokens) :
    (s.keepFirst n).Leaves (OnlyTokens s) := by
  unfold ServerTokens.keepFirst
  split_ifs with beyond enabled whole inside
  · trivial
  · exact ⟨rfl, fun _ noMedia => noMedia⟩
  · exact ⟨rfl, fun _ noMedia => noMedia⟩
  · refine ⟨rfl, fun disabled _ => ?_⟩
    rw [enabled] at disabled
    contradiction
  · exact ⟨rfl, fun _ noMedia => noMedia⟩

theorem apply_onlyTokens (op : TokensOp) (s : ServerTokens) :
    (op.apply s).Leaves (OnlyTokens s) := by
  have same : OnlyTokens s s := ⟨rfl, fun _ noMedia => noMedia⟩
  cases op with
  | pushToken tok =>
    unfold TokensOp.apply ServerTokens.pushToken
    dsimp only
    split_ifs
    · exact same
    · exact same
  | pushChunk chunk =>
    cases chunk with
    | media chunk =>
      unfold TokensOp.apply ServerTokens.pushChunk
      split_ifs with enabled
      · refine ⟨rfl, fun disabled _ => ?_⟩
        rw [enabled] at disabled
        contradiction
      · trivial
    | text tokens => exact pushTokens_onlyTokens tokens s
  | append other =>
    refine (pushTokens_onlyTokens other.tokens s).bind (fun _ left => left) fun pushed left => ?_
    split_ifs with media enabled
    · refine ⟨left.1, fun disabled _ => ?_⟩
      rw [← left.1, enabled] at disabled
      contradiction
    · trivial
    · exact left
  | insert inpTokens =>
    unfold TokensOp.apply ServerTokens.insert
    split_ifs
    · trivial
    · exact same
  | resize size => exact same
  | clear => exact same
  | keepFirst n => exact keepFirst_onlyTokens n s
  | discardNTokens nKeep nDiscard =>
    unfold TokensOp.apply ServerTokens.discardNTokens
    dsimp only
    split_ifs
    · exact same
    · trivial
    · refine (keepFirst_onlyTokens _ s).bind (fun _ left => left) fun kept left => ?_
      refine ⟨left.1, fun disabled noMedia => ?_⟩
      rw [noMedia, left.2 disabled noMedia]
      rfl

theorem ServerTokens.Coherent.step {s next : ServerTokens} {op : TokensOp} (coherent : s.Coherent)
    (kept : op.Keeps s) (stepped : tokensStep s op = some next) : next.Coherent := by
  have only := apply_onlyTokens op s
  unfold TokensOp.Keeps at kept
  unfold tokensStep at stepped
  cases result : op.apply s with
  | returned final =>
    rw [result] at kept only stepped
    cases stepped
    exact ⟨kept.1, fun disabled =>
      have before := only.1.symm.trans disabled
      only.2 before (coherent.noMedia before)⟩
  | threw final message =>
    rw [result] at kept stepped
    cases stepped
    exact kept.1.symm ▸ coherent
  | aborted =>
    rw [result] at stepped
    contradiction

/-- In every run whose operations meet their conditions the null tokens are the runs of the map,
and an operation keeps this, concatenates and throws without effect exactly when it meets its
condition. -/
theorem serverTokens_inSync {hasMtmd : Bool} {s : ServerTokens}
    (run : Reaches tokensStep (fun s op => op.Allowed s ∧ op.Meets s) ⟨hasMtmd, [], []⟩ s) :
    InSync s.tokens s.mapIdxToMedia ∧ ∀ op : TokensOp, op.Allowed s → (op.Keeps s ↔ op.Meets s) := by
  have coherent : s.Coherent := by
    refine run.invariant ServerTokens.Coherent ⟨.empty, fun _ => rfl⟩ ?_
    intro state op next coherent allowed stepped
    exact coherent.step ((keeps_iff_meets coherent allowed.1).mpr allowed.2) stepped
  exact ⟨coherent.sync, fun op allowed => keeps_iff_meets coherent allowed⟩

/-- A text token, an image of two tokens and a shrinking that cuts nothing off. -/
theorem serverTokens_inSync_at_image :
    InSync [5, tokenNull, tokenNull] [(1, ⟨"image", 2, Nat.two_pos⟩)] ∧
    ∀ op : TokensOp,
      op.Allowed ⟨true, [(1, ⟨"image", 2, Nat.two_pos⟩)], [5, tokenNull, tokenNull]⟩ →
      (op.Keeps ⟨true, [(1, ⟨"image", 2, Nat.two_pos⟩)], [5, tokenNull, tokenNull]⟩ ↔
        op.Meets ⟨true, [(1, ⟨"image", 2, Nat.two_pos⟩)], [5, tokenNull, tokenNull]⟩) := by
  have text : Reaches tokensStep (fun s op => op.Allowed s ∧ op.Meets s) ⟨true, [], []⟩
      ⟨true, [], [5]⟩ :=
    .tail .refl (show TokensOp.Allowed _ (.pushToken 5) ∧ TokensOp.Meets _ _ from
      ⟨trivial, trivial⟩) rfl
  have image : Reaches tokensStep (fun s op => op.Allowed s ∧ op.Meets s) ⟨true, [], []⟩
      ⟨true, [(1, ⟨"image", 2, Nat.two_pos⟩)], [5, tokenNull, tokenNull]⟩ :=
    .tail text (show TokensOp.Allowed _ (.pushChunk (.media ⟨"image", 2, Nat.two_pos⟩)) ∧
      TokensOp.Meets _ _ from ⟨trivial, trivial⟩) rfl
  refine serverTokens_inSync (.tail image
    (show TokensOp.Allowed _ (.resize 3) ∧ TokensOp.Meets _ _ from ⟨trivial, ?_⟩) rfl)
  intro entry mem
  rw [mem_singleton.mp mem]
  exact Nat.le_refl 3

/-- Clearing after an image leaves the entry of the image. -/
theorem clear_keeps_media :
    ¬ ∀ s, Reaches tokensStep (fun s op => op.Allowed s) ⟨true, [], []⟩ s →
      InSync s.tokens s.mapIdxToMedia := by
  intro always
  have image : Reaches tokensStep (fun s op => op.Allowed s) ⟨true, [], []⟩
      ⟨true, [(0, ⟨"image", 2, Nat.two_pos⟩)], [tokenNull, tokenNull]⟩ :=
    .tail .refl (show TokensOp.Allowed _ (.pushChunk (.media ⟨"image", 2, Nat.two_pos⟩)) from
      trivial) rfl
  have sync := always _ (.tail image (show TokensOp.Allowed _ .clear from trivial) rfl)
  exact absurd (sync.no_media not_mem_nil) (cons_ne_nil _ _)

end LlamaCpp.Server
