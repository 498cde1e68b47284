import LlamaCpp.Server.AnthropicEvents
import Mathlib.Data.List.Forall2
import Mathlib.Data.List.GetD

/-!
# Anthropic streams

The blocks of a stream are followed one at a time: at each index stand the events of one part of
the message.  Partial responses open blocks at the end and append to blocks that are there; the
final response closes all of them.  That works as long as no part that comes earlier in the order
of the blocks turns up after a later one.
-/

set_option autoImplicit false

namespace LlamaCpp.Server

open LlamaCpp.Lib List

/-! ## Open blocks -/

structure Streams (parts : List (BlockPart × Bytes)) (events : List AnthropicEvent) : Prop where
  opened : ∀ index part, parts[index]? = some part →
    IsOpenBlock index part (eventsAt index events)
  unused : ∀ index, parts.length ≤ index → eventsAt index events = []

@[simp] theorem eventsAt_append (index : Nat) (events more : List AnthropicEvent) :
    eventsAt index (events ++ more) = eventsAt index events ++ eventsAt index more :=
  filter_append _ _

theorem eventsAt_singleton (index : Nat) (event : AnthropicEvent) :
    eventsAt index [event] = if event.isAt index then [event] else [] := by
  rw [eventsAt, filter_cons, filter_nil]

@[simp] theorem eventsAt_blockStart (index place : Nat) (block : ContentBlock) :
    eventsAt index [.blockStart place block] =
      if place = index then [.blockStart place block] else [] := by
  simp [eventsAt_singleton, AnthropicEvent.isAt]

@[simp] theorem eventsAt_blockDelta (index place : Nat) (delta : BlockDelta) :
    eventsAt index [.blockDelta place delta] =
      if place = index then [.blockDelta place delta] else [] := by
  simp [eventsAt_singleton, AnthropicEvent.isAt]

@[simp] theorem eventsAt_blockStop (index place : Nat) :
    eventsAt index [.blockStop place] = if place = index then [.blockStop place] else [] := by
  simp [eventsAt_singleton, AnthropicEvent.isAt]

theorem Streams.nil : Streams [] [] where
  opened := by simp
  unused := fun _ _ => rfl

variable {parts : List (BlockPart × Bytes)} {events : List AnthropicEvent}
  {before after : List (BlockPart × Bytes)} {calls : List ToolCall}
  {front : List (BlockPart × Bytes)} {pref : ToolCall} {prv new : ChatMsg}
  {reasoning content : Bytes} {parsed old : ChatMsg} {slot : AnthropicSlot}

theorem Streams.skip {more : List AnthropicEvent} (streams : Streams parts events)
    (elsewhere : ∀ index, eventsAt index more = []) : Streams parts (events ++ more) where
  opened := by
    intro index part here
    rw [eventsAt_append, elsewhere, append_nil]
    exact streams.opened index part here
  unused := by
    intro index beyond
    rw [eventsAt_append, elsewhere, append_nil]
    exact streams.unused index beyond

theorem Streams.start (streams : Streams parts events) (block : ContentBlock) :
    Streams (parts ++ [(block.part, [])]) (events ++ [.blockStart parts.length block]) where
  opened := by
    intro index part here
    rw [eventsAt_append, eventsAt_blockStart]
    rcases Nat.lt_trichotomy index parts.length with before | same | beyond
    · rw [List.getElem?_append_left before] at here
      rw [if_neg (by omega), append_nil]
      exact streams.opened index part here
    · subst index
      rw [List.getElem?_concat_length, Option.some.injEq] at here
      subst part
      rw [streams.unused parts.length (Nat.le_refl _), if_pos rfl]
      exact ⟨block, [], rfl, by simp, rfl, rfl⟩
    · rw [List.getElem?_eq_none (by simp; omega)] at here
      contradiction
  unused := by
    intro index beyond
    simp only [length_append, length_singleton] at beyond
    rw [eventsAt_append, eventsAt_blockStart, streams.unused index (by omega),
      if_neg (by omega), append_nil]

theorem Streams.more {part : BlockPart} {text : Bytes}
    (streams : Streams (before ++ (part, text) :: after) events) {delta : BlockDelta}
    (fits : delta.Fits part) : Streams (before ++ (part, text ++ delta.bytes) :: after)
      (events ++ [.blockDelta before.length delta]) where
  opened := by
    intro index found here
    rw [eventsAt_append, eventsAt_blockDelta]
    by_cases same : before.length = index
    · subst index
      rw [List.getElem?_append_right (Nat.le_refl _), Nat.sub_self, List.getElem?_cons_zero,
        Option.some.injEq] at here
      subst found
      obtain ⟨block, deltas, kind, allFit, bytes, open_⟩ :=
        streams.opened before.length (part, text) (by simp)
      refine ⟨block, deltas ++ [delta], kind, ?_, ?_, ?_⟩
      · intro other member
        rcases mem_append.mp member with earlier | last
        · exact allFit other earlier
        · rw [mem_singleton.mp last]
          exact fits
      · rw [flatMap_append, bytes, flatMap_singleton]
      · rw [open_, if_pos rfl, map_append]
        rfl
    · rw [if_neg same, append_nil]
      refine streams.opened index found ?_
      rw [← here]
      rcases Nat.lt_or_ge index before.length with less | least
      · rw [List.getElem?_append_left less, List.getElem?_append_left less]
      · obtain ⟨gap, split⟩ : ∃ gap, index - before.length = gap + 1 :=
          ⟨index - before.length - 1, by omega⟩
        rw [List.getElem?_append_right least, List.getElem?_append_right least, split,
          List.getElem?_cons_succ, List.getElem?_cons_succ]
  unused := by
    intro index beyond
    simp only [length_append, length_cons] at beyond
    rw [eventsAt_append, eventsAt_blockDelta, if_neg (by omega), append_nil]
    exact streams.unused index (by simp only [length_append]; omega)

/-! ## One diff -/

@[simp] theorem textPart_nil (part : BlockPart) : textPart part [] = [] := rfl

theorem textPart_of_ne {part : BlockPart} {text : Bytes} (some_ : text ≠ []) :
    textPart part text = [(part, text)] := if_neg some_

theorem length_textPart (part : BlockPart) (text : Bytes) :
    (textPart part text).length = (!text.isEmpty).toNat := by
  cases text <;> rfl

theorem Streams.text {old more : Bytes} (block : ContentBlock) (delta : Bytes → BlockDelta)
    (streams : Streams (before ++ textPart block.part old ++ after) events)
    (fits : (delta more).Fits block.part) (carries : (delta more).bytes = more)
    (last : old = [] → more ≠ [] → after = []) :
    Streams (before ++ textPart block.part (old ++ more) ++ after)
      (events ++ textEvents before.length block delta (!old.isEmpty) more) := by
  by_cases nothing : more = []
  · subst more
    rw [append_nil, textEvents, if_pos rfl, append_nil]
    exact streams
  rw [textEvents, if_neg nothing]
  by_cases fresh : old = []
  · subst old
    cases last rfl nothing
    simp only [textPart_nil, append_nil] at streams
    have grown := (streams.start block).more fits
    rw [carries, append_assoc] at grown
    rw [nil_append, append_nil, textPart_of_ne nothing]
    exact grown
  · rw [textPart_of_ne fresh, append_assoc] at streams
    have grown := streams.more fits
    rw [carries] at grown
    have started : (!old.isEmpty) = true := by cases old with
      | nil => contradiction
      | cons head tail => rfl
    rw [started, textPart_of_ne (by simp [fresh]), append_assoc]
    exact grown

theorem Streams.arguments {id text : Bytes} (more : Bytes)
    (streams : Streams (before ++ (.tool id, text) :: after) events) :
    Streams (before ++ (.tool id, text ++ more) :: after)
      (events ++ argumentEvents before.length more) := by
  rw [argumentEvents]
  split
  · rename_i nothing
    rw [nothing, append_nil, append_nil]
    exact streams
  · have fits : (BlockDelta.inputJson more).Fits (.tool id) := ⟨id, rfl⟩
    exact streams.more fits

theorem Streams.tool (streams : Streams parts events) (id name arguments : Bytes) :
    Streams (parts ++ [(.tool id, arguments)])
      (events ++ ([.blockStart parts.length (.toolUse id name)] ++
        argumentEvents parts.length arguments)) := by
  rw [← append_assoc]
  exact (streams.start (.toolUse id name)).arguments arguments

def openCalls (calls : List ToolCall) : List ToolCall :=
  calls.filter fun call => !call.name.isEmpty

def ChatMsg.openParts (msg : ChatMsg) : List (BlockPart × Bytes) :=
  textPart .thinking msg.reasoningContent ++ textPart .text msg.content ++
    (openCalls msg.toolCalls).map ToolCall.part

theorem openCalls_of_named (named : ∀ call ∈ calls, call.name ≠ []) : openCalls calls = calls := by
  refine filter_eq_self.mpr fun call member => ?_
  simp [named call member]

theorem openCalls_append (calls more : List ToolCall) :
    openCalls (calls ++ more) = openCalls calls ++ openCalls more :=
  filter_append _ _

theorem openCalls_singleton (call : ToolCall) :
    openCalls [call] = if call.name = [] then [] else [call] := by
  rw [openCalls, filter_cons]
  by_cases unnamed : call.name = []
  · simp
  · simp

theorem append_part (front : List (BlockPart × Bytes)) (calls : List ToolCall) (call : ToolCall) :
    front ++ calls.map ToolCall.part ++ [(.tool call.id, call.arguments)] =
      front ++ (calls ++ [call]).map ToolCall.part := by
  rw [map_append, ← append_assoc]
  rfl

theorem Streams.call (streams : Streams parts events) {call : ToolCall} (named : call.name ≠ []) :
    Streams (parts ++ [call.part]) (events ++ callEvents parts.length call) := by
  rw [callEvents, if_neg named]
  exact streams.tool call.id call.name call.arguments

/-! ## The loop of a partial response -/

theorem partialEvents_append (hasReasoning : Bool) (flags : BlockFlags)
    (diffs more : List MsgDiff) :
    partialEvents hasReasoning flags (diffs ++ more) = partialEvents hasReasoning flags diffs ++
      partialEvents hasReasoning (diffs.foldl BlockFlags.after flags) more := by
  induction diffs generalizing flags with
  | nil => rfl
  | cons diff rest ih =>
    simp [partialEvents, ih]

theorem BlockFlags.after_tool (flags : BlockFlags) (call : Nat × ToolCall) :
    flags.after { toolCall := some call } = flags := by
  simp [BlockFlags.after]

@[simp] theorem textEvents_nil (index : Nat) (block : ContentBlock) (delta : Bytes → BlockDelta)
    (started : Bool) : textEvents index block delta started [] = [] := rfl

theorem partialEvents_tool (hasReasoning : Bool) (flags : BlockFlags) (i : Nat) (call : ToolCall)
    (rest : List MsgDiff) :
    partialEvents hasReasoning flags ({ toolCall := some (i, call) } :: rest) =
      callEvents (hasReasoning.toNat + flags.text.toNat + i) call ++
        partialEvents hasReasoning flags rest := by
  simp [partialEvents, BlockFlags.after_tool]

theorem Streams.newPartialTools {hasReasoning : Bool} {flags : BlockFlags}
    (place : front.length = hasReasoning.toNat + flags.text.toNat) (rest done : List ToolCall)
    (named : ∀ call ∈ (done ++ rest).dropLast, call.name ≠ [])
    (unnamedEmpty : ∀ call ∈ rest, call.name = [] → call.arguments = [])
    (streams : Streams (front ++ (openCalls done).map ToolCall.part) events) :
    Streams (front ++ (openCalls (done ++ rest)).map ToolCall.part)
      (events ++ partialEvents hasReasoning flags (newToolDiffs done.length rest)) := by
  induction rest generalizing done events with
  | nil =>
    rw [append_nil, newToolDiffs, partialEvents, append_nil]
    exact streams
  | cons call rest ih =>
    have doneNamed : ∀ earlier ∈ done, earlier.name ≠ [] := by
      intro earlier member
      refine named earlier ?_
      rw [dropLast_append_cons]
      exact mem_append_left _ member
    rw [openCalls_of_named doneNamed] at streams
    rw [newToolDiffs, partialEvents_tool]
    by_cases unnamed : call.name = []
    · have alone : rest = [] := by
        by_contra others
        refine named call ?_ unnamed
        rw [dropLast_append_cons, dropLast_cons_of_ne_nil others]
        exact mem_append_right _ mem_cons_self
      subst rest
      rw [openCalls_append, openCalls_of_named doneNamed, openCalls_singleton, if_pos unnamed,
        callEvents, if_pos unnamed, unnamedEmpty call mem_cons_self unnamed,
        argumentEvents, newToolDiffs, partialEvents]
      simpa using streams
    · have opened := streams.call unnamed
      rw [length_append, place] at opened
      have openedCalls : openCalls (done ++ [call]) = done ++ [call] := by
        rw [openCalls_append, openCalls_of_named doneNamed, openCalls_singleton, if_neg unnamed]
      rw [ToolCall.part, append_part, ← openedCalls] at opened
      have next := ih (done ++ [call]) (by simpa using named)
        (fun other member => unnamedEmpty other (mem_cons_of_mem _ member)) opened
      simpa using next

theorem Streams.lastPartialTool {hasReasoning : Bool} {flags : BlockFlags}
    (place : front.length = hasReasoning.toNat + flags.text.toNat) {newf : ToolCall}
    {more : Bytes} (named : ∀ call ∈ calls, call.name ≠ [])
    (prefEmpty : pref.name = [] → pref.arguments = [])
    (newfEmpty : newf.name = [] → newf.arguments = [])
    (kept : pref.name ≠ [] → newf.name = pref.name ∧ newf.id = pref.id)
    (grown : newf.arguments = pref.arguments ++ more)
    (streams : Streams (front ++ (openCalls (calls ++ [pref])).map ToolCall.part) events) :
    Streams (front ++ (openCalls (calls ++ [newf])).map ToolCall.part)
      (events ++ partialEvents hasReasoning flags (toolDiff calls.length pref newf more)) := by
  rw [openCalls_append, openCalls_of_named named, openCalls_singleton] at streams ⊢
  have start : (front ++ calls.map ToolCall.part).length =
      hasReasoning.toNat + flags.text.toNat + calls.length := by
    rw [length_append, length_map, place]
  by_cases unnamed : pref.name = []
  · rw [if_pos unnamed, append_nil] at streams
    rw [prefEmpty unnamed, nil_append] at grown
    by_cases still : newf.name = []
    · have nothing : more = [] := grown ▸ newfEmpty still
      have quiet : partialEvents hasReasoning flags (toolDiff calls.length pref newf more) = [] := by
        rw [toolDiff]
        split
        · split
          · simp [callEvents, argumentEvents, still, nothing, partialEvents]
          · simp [callEvents, argumentEvents, nothing, partialEvents]
        · rfl
      rw [if_pos still, quiet, append_nil, append_nil]
      exact streams
    · have changed : pref.id ≠ newf.id ∨ pref.name ≠ newf.name :=
        .inr fun same => still (same ▸ unnamed)
      have whole : (⟨newf.name, more, newf.id⟩ : ToolCall) = newf := by rw [← grown]
      have opened := streams.call still
      rw [start] at opened
      rw [if_neg still, toolDiff, if_pos (.inr changed), if_pos changed, whole,
        partialEvents_tool, ← append_assoc]
      simpa [partialEvents] using opened
  · obtain ⟨sameName, sameId⟩ := kept unnamed
    rw [if_neg unnamed, map_append, ← append_assoc] at streams
    have grew := streams.arguments more
    rw [start] at grew
    have quiet : partialEvents hasReasoning flags (toolDiff calls.length pref newf more) =
        argumentEvents (hasReasoning.toNat + flags.text.toNat + calls.length) more := by
      by_cases nothing : more = []
      · simp [toolDiff, nothing, sameName, sameId, partialEvents, argumentEvents]
      · rw [toolDiff, if_pos (.inl nothing), partialEvents_tool]
        simp [sameName, sameId, callEvents, partialEvents]
    rw [quiet, if_neg (sameName ▸ unnamed), map_append]
    have same : newf.part = (.tool pref.id, pref.arguments ++ more) := by
      rw [ToolCall.part, sameId, grown]
    simpa [same] using grew

/-! ## What the diffs are -/

structure ToolCall.Grows (call grown : ToolCall) : Prop where
  name : call.name <+: grown.name
  arguments : call.arguments <+: grown.arguments

structure ChatMsg.Grows (prv new : ChatMsg) : Prop where
  reasoning : prv.reasoningContent <+: new.reasoningContent
  content : prv.content <+: new.content
  toolCalls : ∀ (i : Nat) (call : ToolCall), prv.toolCalls[i]? = some call →
    ∃ grown, new.toolCalls[i]? = some grown ∧ call.Grows grown

theorem stringDiff_append (last more : Bytes) : stringDiff last (last ++ more) = .ok more := by
  rw [stringDiff]
  split
  · rename_i nothing
    rw [nothing, nil_append]
  · rw [if_neg (not_not.mpr (prefix_append last more)), drop_left]

def reasoningDiff (more : Bytes) : List MsgDiff :=
  if more = [] then [] else [{ reasoningContentDelta := more }]

def contentDiff (more : Bytes) : List MsgDiff :=
  if more = [] then [] else [{ contentDelta := more }]

theorem reasoningDiffs_append {more : Bytes}
    (grown : new.reasoningContent = prv.reasoningContent ++ more)
    (kept : trimsReasoning prv new more = false) :
    reasoningDiffs prv new = .ok (reasoningDiff more) := by
  rw [reasoningDiffs, grown]
  split
  · rename_i same
    rw [self_eq_append_right.mp same]
    rfl
  · rw [stringDiff_append, ok_bind, kept]
    rfl

theorem contentDiffs_append {more : Bytes} (grown : new.content = prv.content ++ more) :
    contentDiffs prv new = .ok (contentDiff more) := by
  rw [contentDiffs, grown]
  split
  · rename_i same
    rw [self_eq_append_right.mp same]
    rfl
  · rw [stringDiff_append]
    rfl

theorem lastToolDiffs_concat {before rest : List ToolCall} {newf : ToolCall} {more : Bytes}
    (prvCalls : prv.toolCalls = calls ++ [pref])
    (newCalls : new.toolCalls = before ++ newf :: rest)
    (sameLength : before.length = calls.length) (name : pref.name <+: newf.name)
    (grown : newf.arguments = pref.arguments ++ more) :
    lastToolDiffs prv new = .ok (toolDiff calls.length pref newf more) := by
  have newHere : new.toolCalls.getD calls.length {} = newf := by
    rw [newCalls, ← sameLength, getD_append_right _ _ _ _ (Nat.le_refl _), Nat.sub_self]
    rfl
  simp only [lastToolDiffs, prvCalls, List.getLast?_concat, length_append,
    length_singleton, Nat.add_sub_cancel, newHere]
  rw [if_neg fun mismatch => mismatch.2.2.2 name, grown, stringDiff_append, ok_bind]

theorem ChatMsg.Grows.split (grows : prv.Grows new) (prvCalls : prv.toolCalls = calls ++ [pref]) :
    ∃ before newf rest more, new.toolCalls = before ++ newf :: rest ∧
      before.length = calls.length ∧ pref.name <+: newf.name ∧
      newf.arguments = pref.arguments ++ more := by
  obtain ⟨newf, here, grown⟩ := grows.toolCalls calls.length pref (by
    rw [prvCalls, List.getElem?_concat_length])
  obtain ⟨more, arguments⟩ := grown.arguments
  obtain ⟨inside, there⟩ := List.getElem?_eq_some_iff.mp here
  refine ⟨new.toolCalls.take calls.length, newf, new.toolCalls.drop (calls.length + 1), more, ?_,
    ?_, grown.name, arguments.symm⟩
  · rw [← there, ← drop_eq_getElem_cons inside, take_append_drop]
  · rw [length_take]
    omega

def ChatMsg.flags (msg : ChatMsg) : BlockFlags :=
  ⟨!msg.reasoningContent.isEmpty, !msg.content.isEmpty⟩

theorem length_texts (msg : ChatMsg) :
    (textPart .thinking msg.reasoningContent ++ textPart .text msg.content).length =
      msg.flags.thinking.toNat + msg.flags.text.toNat := by
  rw [length_append, length_textPart, length_textPart]
  rfl

theorem isEmpty_append_eq (old more : Bytes) :
    (!(old ++ more).isEmpty) = (!old.isEmpty || !more.isEmpty) := by
  cases old <;> simp

theorem foldl_after_texts (prv : ChatMsg) (reasoning content : Bytes) :
    (reasoningDiff reasoning ++ contentDiff content).foldl BlockFlags.after prv.flags =
      ⟨!(prv.reasoningContent ++ reasoning).isEmpty, !(prv.content ++ content).isEmpty⟩ := by
  rw [ChatMsg.flags]
  cases reasoning <;> cases content <;>
    simp [reasoningDiff, contentDiff, BlockFlags.after]

theorem foldl_after_tools (flags : BlockFlags) (diffs : List MsgDiff)
    (tools : ∀ diff ∈ diffs, diff.reasoningContentDelta = [] ∧ diff.contentDelta = []) :
    diffs.foldl BlockFlags.after flags = flags := by
  induction diffs with
  | nil => rfl
  | cons diff rest ih =>
    obtain ⟨noReasoning, noContent⟩ := tools diff mem_cons_self
    rw [foldl_cons, BlockFlags.after, noReasoning, noContent]
    simp only [isEmpty_nil, Bool.not_true, Bool.or_false]
    exact ih fun other member => tools other (mem_cons_of_mem _ member)

theorem newToolDiffs_tools (idx : Nat) (calls : List ToolCall) :
    ∀ diff ∈ newToolDiffs idx calls, diff.reasoningContentDelta = [] ∧ diff.contentDelta = [] := by
  induction calls generalizing idx with
  | nil => simp [newToolDiffs]
  | cons call rest ih =>
    intro diff member
    rcases mem_cons.mp member with here | later
    · rw [here]
      exact ⟨rfl, rfl⟩
    · exact ih (idx + 1) diff later

theorem toolDiff_tools (idx : Nat) (pref newf : ToolCall) (more : Bytes) :
    ∀ diff ∈ toolDiff idx pref newf more,
      diff.reasoningContentDelta = [] ∧ diff.contentDelta = [] := by
  intro diff member
  rw [toolDiff] at member
  split at member
  · rw [mem_singleton.mp member]
    exact ⟨rfl, rfl⟩
  · contradiction

theorem partialEvents_texts (hasReasoning : Bool) (prv : ChatMsg) (reasoning content : Bytes) :
    partialEvents hasReasoning prv.flags (reasoningDiff reasoning ++ contentDiff content) =
      textEvents 0 .thinking .thinking (!prv.reasoningContent.isEmpty) reasoning ++
        textEvents hasReasoning.toNat .text .text (!prv.content.isEmpty) content := by
  cases reasoning <;> cases content <;>
    simp [reasoningDiff, contentDiff, partialEvents, ChatMsg.flags, BlockFlags.after]

theorem Streams.texts {tools : List (BlockPart × Bytes)}
    (moreReasoning : new.reasoningContent = prv.reasoningContent ++ reasoning)
    (moreContent : new.content = prv.content ++ content)
    (reasoningFirst : prv.reasoningContent = [] → reasoning ≠ [] → textPart .text prv.content ++ tools = [])
    (contentFirst : prv.content = [] → content ≠ [] → tools = [])
    (streams : Streams (textPart .thinking prv.reasoningContent ++ textPart .text prv.content ++ tools) events) :
    Streams (textPart .thinking new.reasoningContent ++ textPart .text new.content ++ tools)
      (events ++ (textEvents 0 .thinking .thinking (!prv.reasoningContent.isEmpty) reasoning ++
        textEvents (!new.reasoningContent.isEmpty).toNat .text .text (!prv.content.isEmpty)
          content)) := by
  have thought : Streams ([] ++ textPart .thinking prv.reasoningContent ++
      (textPart .text prv.content ++ tools)) events := by
    rw [← append_assoc]
    exact streams
  have spoken := thought.text .thinking .thinking rfl rfl reasoningFirst
  rw [nil_append, ← moreReasoning, ← append_assoc] at spoken
  have written := spoken.text .text .text rfl rfl contentFirst
  rw [length_textPart, ← moreContent, append_assoc events] at written
  exact written

/-! ## Partial responses -/

/-- Only the last call may have no name yet, and then it has no arguments either. -/
structure CallsNamed (calls : List ToolCall) : Prop where
  named : ∀ call ∈ calls.dropLast, call.name ≠ []
  unnamedEmpty : ∀ call ∈ calls, call.name = [] → call.arguments = []

/-- What keeps the diffs of a message to its earlier parts in the blocks that they have. -/
structure DiffsMeet (prv new : ChatMsg) : Prop where
  contentFirst : prv.content = [] → new.content ≠ [] → openCalls prv.toolCalls = []
  reasoningKept : trimsReasoning prv new
    (new.reasoningContent.drop prv.reasoningContent.length) = false
  earlierKept : (new.toolCalls.take (prv.toolCalls.length - 1)).map ToolCall.part =
    prv.toolCalls.dropLast.map ToolCall.part

theorem CallsNamed.of_concat (named : CallsNamed prv.toolCalls)
    (prvCalls : prv.toolCalls = calls ++ [pref]) : ∀ call ∈ calls, call.name ≠ [] := by
  have all := named.named
  rwa [prvCalls, dropLast_concat] at all

theorem DiffsMeet.earlier {before rest : List ToolCall} (meets : DiffsMeet prv new)
    (prvCalls : prv.toolCalls = calls ++ [pref]) (newCalls : new.toolCalls = before ++ rest)
    (sameLength : before.length = calls.length) :
    before.map ToolCall.part = calls.map ToolCall.part := by
  have kept := meets.earlierKept
  rwa [prvCalls, newCalls, dropLast_concat, length_append, length_singleton,
    Nat.add_sub_cancel, ← sameLength, take_left] at kept

structure PartialMeets (prv new : ChatMsg) : Prop extends DiffsMeet prv new where
  reasoningFirst : prv.reasoningContent = [] → new.reasoningContent ≠ [] →
    prv.content = [] ∧ openCalls prv.toolCalls = []
  named : CallsNamed new.toolCalls
  lastKept : ∀ call grown, prv.toolCalls.getLast? = some call →
    new.toolCalls[prv.toolCalls.length - 1]? = some grown → call.name ≠ [] →
    grown.name = call.name ∧ grown.id = call.id

theorem partialEvents_tools (hasReasoning : Bool) (prv new : ChatMsg) (tools : List MsgDiff)
    (moreReasoning : new.reasoningContent = prv.reasoningContent ++ reasoning)
    (moreContent : new.content = prv.content ++ content) :
    partialEvents hasReasoning prv.flags (reasoningDiff reasoning ++ contentDiff content ++ tools) =
      textEvents 0 .thinking .thinking (!prv.reasoningContent.isEmpty) reasoning ++
        textEvents hasReasoning.toNat .text .text (!prv.content.isEmpty) content ++
        partialEvents hasReasoning new.flags tools := by
  rw [partialEvents_append, partialEvents_texts, foldl_after_texts, ← moreReasoning, ← moreContent]
  rfl

theorem Streams.partialTools (grows : prv.Grows new) (named : CallsNamed prv.toolCalls)
    (meets : PartialMeets prv new)
    (streams : Streams (textPart .thinking new.reasoningContent ++ textPart .text new.content ++ (openCalls prv.toolCalls).map ToolCall.part) events) :
    ∃ last, lastToolDiffs prv new = .ok last ∧
      (∀ diff ∈ last, diff.reasoningContentDelta = [] ∧ diff.contentDelta = []) ∧
      Streams new.openParts (events ++ partialEvents (!new.reasoningContent.isEmpty) new.flags
        (last ++ newToolDiffs prv.toolCalls.length
          (new.toolCalls.drop prv.toolCalls.length))) := by
  have place := length_texts new
  rcases eq_nil_or_concat' prv.toolCalls with none_ | ⟨calls, pref, prvCalls⟩
  · refine ⟨[], by rw [lastToolDiffs, none_]; rfl, by simp, ?_⟩
    rw [none_] at streams ⊢
    exact streams.newPartialTools place new.toolCalls [] meets.named.named
      meets.named.unnamedEmpty
  obtain ⟨before, newf, rest, more, newCalls, sameLength, name, arguments⟩ := grows.split prvCalls
  have earlier := meets.earlier prvCalls newCalls sameLength
  have callsNamed := named.of_concat prvCalls
  have beforeNamed : ∀ call ∈ before, call.name ≠ [] := by
    intro call member
    refine meets.named.named call ?_
    rw [newCalls, dropLast_append_cons]
    exact mem_append_left _ member
  refine ⟨_, lastToolDiffs_concat prvCalls newCalls sameLength name arguments,
    toolDiff_tools _ _ _ _, ?_⟩
  rw [prvCalls] at streams
  have grown := streams.lastPartialTool place callsNamed
    (named.unnamedEmpty pref (by simp [prvCalls]))
    (meets.named.unnamedEmpty newf (by simp [newCalls]))
    (meets.lastKept pref newf (by simp [prvCalls]) (by simp [prvCalls, newCalls, ← sameLength]))
    arguments
  have sameParts : (openCalls (calls ++ [newf])).map ToolCall.part =
      (openCalls (before ++ [newf])).map ToolCall.part := by
    rw [openCalls_append, openCalls_append, openCalls_of_named callsNamed,
      openCalls_of_named beforeNamed, map_append, map_append, earlier]
  rw [sameParts] at grown
  have whole : before ++ [newf] ++ rest = new.toolCalls := by simp [newCalls]
  have opened := grown.newPartialTools place rest (before ++ [newf])
    (by rw [whole]; exact meets.named.named)
    (fun call member => meets.named.unnamedEmpty call (by simp [newCalls, member]))
  rw [whole, append_assoc events] at opened
  have counts : prv.toolCalls.length = (before ++ [newf]).length := by
    simp [prvCalls, sameLength]
  rw [partialEvents_append, foldl_after_tools _ _ (toolDiff_tools _ _ _ _), counts, ← whole,
    drop_left]
  exact opened

theorem ChatMsg.Grows.length_le (grows : prv.Grows new) :
    prv.toolCalls.length ≤ new.toolCalls.length := by
  by_contra fewer
  obtain ⟨call, here⟩ : ∃ call, prv.toolCalls[new.toolCalls.length]? = some call :=
    ⟨_, List.getElem?_eq_getElem (Nat.lt_of_not_le fewer)⟩
  obtain ⟨grown, there, -⟩ := grows.toolCalls _ _ here
  rw [List.getElem?_eq_none (Nat.le_refl _)] at there
  contradiction

theorem computeDiffs_grown (grows : prv.Grows new)
    (moreReasoning : new.reasoningContent = prv.reasoningContent ++ reasoning)
    (moreContent : new.content = prv.content ++ content)
    (kept : trimsReasoning prv new (new.reasoningContent.drop prv.reasoningContent.length) = false)
    {last : List MsgDiff} (lastIs : lastToolDiffs prv new = .ok last)
    (lastTools : ∀ diff ∈ last, diff.reasoningContentDelta = [] ∧ diff.contentDelta = []) :
    let diffs := reasoningDiff reasoning ++ contentDiff content ++ (last ++
      newToolDiffs prv.toolCalls.length (new.toolCalls.drop prv.toolCalls.length))
    computeDiffs prv new = .ok diffs ∧ diffs.foldl BlockFlags.after prv.flags = new.flags := by
  rw [moreReasoning, drop_left] at kept
  constructor
  · rw [computeDiffs, reasoningDiffs_append moreReasoning kept, ok_bind,
      contentDiffs_append moreContent, ok_bind, if_neg (Nat.not_lt.mpr grows.length_le), lastIs,
      ok_bind, append_assoc (reasoningDiff reasoning ++ contentDiff content)]
  · rw [foldl_append, foldl_after_texts, ← moreReasoning, ← moreContent, foldl_after_tools]
    · rfl
    · intro diff member
      rcases mem_append.mp member with earlier | fresh
      · exact lastTools diff earlier
      · exact newToolDiffs_tools _ _ diff fresh

theorem textEvents_noStart (index : Nat) (block : ContentBlock) (delta : Bytes → BlockDelta)
    (started : Bool) (more : Bytes) :
    .messageStart ∉ textEvents index block delta started more := by
  rw [textEvents]
  split
  · simp
  · simp

theorem argumentEvents_noStart (index : Nat) (arguments : Bytes) :
    .messageStart ∉ argumentEvents index arguments := by
  rw [argumentEvents]
  simp

theorem callEvents_noStart (index : Nat) (call : ToolCall) :
    .messageStart ∉ callEvents index call := by
  rw [callEvents, mem_append, not_or]
  refine ⟨?_, argumentEvents_noStart index call.arguments⟩
  simp

theorem partialEvents_noStart (hasReasoning : Bool) (flags : BlockFlags) (diffs : List MsgDiff) :
    .messageStart ∉ partialEvents hasReasoning flags diffs := by
  induction diffs generalizing flags with
  | nil => simp [partialEvents]
  | cons diff rest ih =>
    rw [partialEvents, mem_append, mem_append, mem_append, not_or, not_or, not_or]
    refine ⟨⟨⟨textEvents_noStart _ _ _ _ _, textEvents_noStart _ _ _ _ _⟩, ?_⟩, ih _⟩
    split
    · exact not_mem_nil
    · exact callEvents_noStart _ _

structure SlotStreams (slot : AnthropicSlot) : Prop where
  flags : slot.flags = slot.chatMsg.flags
  named : CallsNamed slot.chatMsg.toolCalls
  streams : Streams slot.chatMsg.openParts slot.events

theorem updateChatMsg_of_empty (old : ChatMsg) (empty : parsed.isEmpty = true) :
    updateChatMsg old parsed = .ok [] ∧ old.updated parsed = old :=
  ⟨if_pos empty, if_pos empty⟩

theorem updateChatMsg_of_not_empty (some_ : ¬ parsed.isEmpty = true) :
    updateChatMsg old parsed = computeDiffs old (old.updated parsed) := by
  rw [updateChatMsg, if_neg some_, ChatMsg.updated, if_neg some_]

theorem Streams.partialDiffs (streams : Streams old.openParts events)
    (named : CallsNamed old.toolCalls) (grows : old.Grows (old.updated parsed))
    (meets : PartialMeets old (old.updated parsed)) :
    ∃ diffs, updateChatMsg old parsed = .ok diffs ∧
      diffs.foldl BlockFlags.after old.flags = (old.updated parsed).flags ∧
      Streams (old.updated parsed).openParts
        (events ++ partialEvents (!(old.updated parsed).reasoningContent.isEmpty) old.flags
          diffs) := by
  by_cases empty : parsed.isEmpty = true
  · obtain ⟨noDiffs, same⟩ := updateChatMsg_of_empty old empty
    refine ⟨[], noDiffs, by rw [same]; rfl, ?_⟩
    rw [same, partialEvents, append_nil]
    exact streams
  rw [updateChatMsg_of_not_empty empty]
  obtain ⟨reasoning, moreReasoning⟩ := grows.reasoning
  obtain ⟨content, moreContent⟩ := grows.content
  have texts := streams.texts moreReasoning.symm moreContent.symm (by
      intro none_ some_
      obtain ⟨noContent, noCalls⟩ := meets.reasoningFirst none_ (by simp [← moreReasoning, some_])
      rw [noContent, noCalls]
      rfl) (by
      intro none_ some_
      rw [meets.contentFirst none_ (by simp [← moreContent, some_])]
      rfl)
  obtain ⟨last, lastIs, lastTools, tools⟩ := texts.partialTools grows named meets
  rw [append_assoc, ← partialEvents_tools _ _ _ _ moreReasoning.symm moreContent.symm] at tools
  obtain ⟨computed, flags⟩ := computeDiffs_grown grows moreReasoning.symm moreContent.symm
    meets.reasoningKept lastIs lastTools
  exact ⟨_, computed, flags, tools⟩

theorem SlotStreams.partialResponse (inv : SlotStreams slot) (nDecoded : Nat)
    (grows : slot.chatMsg.Grows (slot.chatMsg.updated parsed))
    (meets : PartialMeets slot.chatMsg (slot.chatMsg.updated parsed)) :
    ∃ next events, sendPartialResponse slot parsed nDecoded = .ok next ∧ SlotStreams next ∧
      next.chatMsg = slot.chatMsg.updated parsed ∧ .messageStart ∉ events ∧
      next.events = slot.events ++ (if nDecoded = 1 then [.messageStart] else []) ++ events := by
  have skipped : Streams slot.chatMsg.openParts
      (slot.events ++ (if nDecoded = 1 then [.messageStart] else [])) := by
    refine inv.streams.skip fun index => ?_
    split <;> rfl
  obtain ⟨diffs, updated, flags, streams⟩ := skipped.partialDiffs inv.named grows meets
  rw [← inv.flags] at flags streams
  refine ⟨⟨slot.chatMsg.updated parsed, diffs.foldl BlockFlags.after slot.flags, _⟩, _, ?_,
    ⟨flags, meets.named, streams⟩, rfl, partialEvents_noStart _ _ _, rfl⟩
  rw [sendPartialResponse, updated, ok_bind]

/-! ## The final response -/

structure FinalMeets (prv new : ChatMsg) : Prop extends DiffsMeet prv new where
  reasoningFirst : prv.reasoningContent = [] → new.reasoningContent ≠ [] →
    new.content = [] ∧ openCalls prv.toolCalls = []
  lastKept : ∀ call grown, prv.toolCalls.getLast? = some call →
    new.toolCalls[prv.toolCalls.length - 1]? = some grown → (call.name ≠ [] ↔ grown = call)

theorem finalEvents_tool (textBlockIndex : Nat) (calls : List ToolCall) (flags : BlockFlags)
    (started : List Nat) (i : Nat) (call : ToolCall) (rest : List MsgDiff) :
    finalEvents textBlockIndex calls flags started ({ toolCall := some (i, call) } :: rest) =
      ((if i ∈ started then [] else
          [.blockStart (flags.thinking.toNat + flags.text.toNat + i)
            (.toolUse (calls.getD i {}).id (calls.getD i {}).name)]) ++
        argumentEvents (flags.thinking.toNat + flags.text.toNat + i) call.arguments) ++
      finalEvents textBlockIndex calls flags (started ++ [i]) rest := by
  simp [finalEvents, BlockFlags.after_tool]

theorem finalEvents_texts (textBlockIndex : Nat) (calls : List ToolCall) (prv new : ChatMsg)
    (tools : List MsgDiff)
    (moreReasoning : new.reasoningContent = prv.reasoningContent ++ reasoning)
    (moreContent : new.content = prv.content ++ content) :
    finalEvents textBlockIndex calls prv.flags []
        (reasoningDiff reasoning ++ contentDiff content ++ tools) =
      textEvents 0 .thinking .thinking (!prv.reasoningContent.isEmpty) reasoning ++
        textEvents textBlockIndex .text .text (!prv.content.isEmpty) content ++
        finalEvents textBlockIndex calls new.flags [] tools := by
  rw [ChatMsg.flags, ChatMsg.flags, moreReasoning, moreContent, isEmpty_append_eq,
    isEmpty_append_eq]
  cases reasoning <;> cases content <;>
    simp [reasoningDiff, contentDiff, finalEvents, BlockFlags.after]

theorem Streams.newFinalTools {flags : BlockFlags} (textBlockIndex : Nat)
    (place : front.length = flags.thinking.toNat + flags.text.toNat) (rest done : List ToolCall)
    (started : List Nat) (earlier : ∀ i ∈ started, i < done.length)
    (streams : Streams (front ++ done.map ToolCall.part) events) :
    Streams (front ++ (done ++ rest).map ToolCall.part)
      (events ++ finalEvents textBlockIndex (done ++ rest) flags started
        (newToolDiffs done.length rest)) := by
  induction rest generalizing done started events with
  | nil =>
    rw [append_nil, newToolDiffs, finalEvents, append_nil]
    exact streams
  | cons call rest ih =>
    have fresh : done.length ∉ started := fun member => Nat.lt_irrefl _ (earlier _ member)
    have here : (done ++ call :: rest).getD done.length {} = call := by
      rw [getD_append_right _ _ _ _ (Nat.le_refl _), Nat.sub_self]
      rfl
    have opened := streams.tool call.id call.name call.arguments
    rw [length_append, place] at opened
    rw [append_part _ _ call] at opened
    have next := ih (done ++ [call]) (started ++ [done.length]) (by
      intro i member
      rw [length_append]
      rcases mem_append.mp member with before | last
      · exact Nat.lt_succ_of_lt (earlier i before)
      · rw [mem_singleton.mp last]
        exact Nat.lt_succ_self _) opened
    rw [newToolDiffs, finalEvents_tool, if_neg fresh]
    simpa using next

theorem Streams.finalTools (grows : prv.Grows new) (named : CallsNamed prv.toolCalls)
    (meets : FinalMeets prv new) (textBlockIndex : Nat)
    (streams : Streams (textPart .thinking new.reasoningContent ++ textPart .text new.content ++ (openCalls prv.toolCalls).map ToolCall.part) events) :
    ∃ last, lastToolDiffs prv new = .ok last ∧
      (∀ diff ∈ last, diff.reasoningContentDelta = [] ∧ diff.contentDelta = []) ∧
      Streams new.parts (events ++ finalEvents textBlockIndex new.toolCalls new.flags []
        (last ++ newToolDiffs prv.toolCalls.length
          (new.toolCalls.drop prv.toolCalls.length))) := by
  have place := length_texts new
  rcases eq_nil_or_concat' prv.toolCalls with none_ | ⟨calls, pref, prvCalls⟩
  · refine ⟨[], by rw [lastToolDiffs, none_]; rfl, by simp, ?_⟩
    rw [none_] at streams ⊢
    exact streams.newFinalTools textBlockIndex place new.toolCalls [] [] (by simp)
  obtain ⟨before, newf, rest, more, newCalls, sameLength, name, arguments⟩ := grows.split prvCalls
  have earlier := meets.earlier prvCalls newCalls sameLength
  have callsNamed := named.of_concat prvCalls
  have kept := meets.lastKept pref newf (by simp [prvCalls])
    (by simp [prvCalls, newCalls, ← sameLength])
  refine ⟨_, lastToolDiffs_concat prvCalls newCalls sameLength name arguments,
    toolDiff_tools _ _ _ _, ?_⟩
  have whole : before ++ [newf] ++ rest = new.toolCalls := by simp [newCalls]
  have counts : prv.toolCalls.length = (before ++ [newf]).length := by
    simp [prvCalls, sameLength]
  rw [prvCalls, openCalls_append, openCalls_of_named callsNamed, openCalls_singleton,
    map_append, ← earlier] at streams
  rw [counts, ← whole, drop_left, ← sameLength]
  by_cases unnamed : pref.name = []
  · rw [if_pos unnamed, map_nil, append_nil] at streams
    have nothing := named.unnamedEmpty pref (by simp [prvCalls]) unnamed
    rw [nothing] at arguments
    have changed : more ≠ [] ∨ pref.id ≠ newf.id ∨ pref.name ≠ newf.name := by
      by_contra same
      cases pref
      cases newf
      simp_all
    have full : new.toolCalls.getD before.length {} = newf := by
      rw [newCalls, getD_append_right _ _ _ _ (Nat.le_refl _), Nat.sub_self]
      rfl
    have opened := streams.tool newf.id newf.name newf.arguments
    rw [length_append, length_map, place] at opened
    rw [append_part _ _ newf] at opened
    have others := opened.newFinalTools textBlockIndex place rest (before ++ [newf])
      [before.length] (by simp)
    have sent : (if pref.id ≠ newf.id ∨ pref.name ≠ newf.name then ⟨newf.name, more, newf.id⟩
        else { arguments := more } : ToolCall).arguments = newf.arguments := by
      rw [arguments]
      split <;> rfl
    rw [whole, append_assoc events] at others
    rw [toolDiff, if_pos changed, singleton_append, finalEvents_tool,
      sent, whole, full]
    exact others
  · have same : newf = pref := kept.mp unnamed
    subst newf
    have nothing : more = [] := self_eq_append_right.mp arguments
    have quiet : toolDiff before.length pref pref more = [] := by simp [toolDiff, nothing]
    rw [if_neg unnamed, ← map_append] at streams
    rw [quiet]
    have opened := streams.newFinalTools textBlockIndex place rest (before ++ [pref]) []
      (by simp)
    rw [whole] at opened ⊢
    exact opened

theorem Streams.finalDiffs (streams : Streams old.openParts events)
    (named : CallsNamed old.toolCalls) (grows : old.Grows (old.updated parsed))
    (meets : FinalMeets old (old.updated parsed)) : ∃ diffs, updateChatMsg old parsed = .ok diffs ∧
      diffs.foldl BlockFlags.after old.flags = (old.updated parsed).flags ∧
      Streams (old.updated parsed).parts
        (events ++ finalEvents old.flags.thinking.toNat (old.updated parsed).toolCalls old.flags []
          diffs) := by
  by_cases empty : parsed.isEmpty = true
  · obtain ⟨noDiffs, same⟩ := updateChatMsg_of_empty old empty
    refine ⟨[], noDiffs, by rw [same]; rfl, ?_⟩
    rw [same] at meets ⊢
    rw [finalEvents, append_nil]
    rw [ChatMsg.openParts, openCalls_of_named] at streams
    · exact streams
    · intro call member
      rcases eq_nil_or_concat' old.toolCalls with none_ | ⟨calls, last, split⟩
      · rw [none_] at member
        contradiction
      · have lastNamed := (meets.lastKept last last (by simp [split]) (by simp [split])).mpr rfl
        have others := named.named
        rw [split, dropLast_concat] at others
        rw [split] at member
        rcases mem_append.mp member with earlier | here
        · exact others call earlier
        · rw [mem_singleton.mp here]
          exact lastNamed
  rw [updateChatMsg_of_not_empty empty]
  generalize old.updated parsed = new at *
  obtain ⟨reasoning, moreReasoning⟩ := grows.reasoning
  obtain ⟨content, moreContent⟩ := grows.content
  have startsAlone (none_ : old.reasoningContent = []) (some_ : reasoning ≠ []) :=
    meets.reasoningFirst none_ (by simp [← moreReasoning, some_])
  have texts := streams.texts moreReasoning.symm moreContent.symm (by
      intro none_ some_
      obtain ⟨noContent, noCalls⟩ := startsAlone none_ some_
      rw [(append_eq_nil_iff.mp (moreContent.trans noContent)).1, noCalls]
      rfl) (by
      intro none_ some_
      rw [meets.contentFirst none_ (by simp [← moreContent, some_])]
      rfl)
  have sameIndex : textEvents (!new.reasoningContent.isEmpty).toNat .text .text
      (!old.content.isEmpty) content =
        textEvents old.flags.thinking.toNat .text .text (!old.content.isEmpty) content := by
    by_cases nothing : content = []
    · rw [nothing, textEvents_nil, textEvents_nil]
    · by_cases none_ : old.reasoningContent = []
      · by_cases still : reasoning = []
        · rw [← moreReasoning, still, append_nil, ChatMsg.flags]
        · have noContent := (startsAlone none_ still).1
          exact absurd (append_eq_nil_iff.mp (moreContent.trans noContent)).2 nothing
      · have some_ : (!(old.reasoningContent ++ reasoning).isEmpty) =
            !old.reasoningContent.isEmpty := by
          rw [isEmpty_append_eq, isEmpty_eq_false_iff.mpr none_]
          rfl
        rw [← moreReasoning, some_, ChatMsg.flags]
  rw [sameIndex] at texts
  obtain ⟨last, lastIs, lastTools, tools⟩ :=
    texts.finalTools grows named meets old.flags.thinking.toNat
  rw [append_assoc, ← finalEvents_texts _ _ _ _ _ moreReasoning.symm moreContent.symm] at tools
  obtain ⟨computed, flags⟩ := computeDiffs_grown grows moreReasoning.symm moreContent.symm
    meets.reasoningKept lastIs lastTools
  exact ⟨_, computed, flags, tools⟩

/-! ## Closing the blocks -/

theorem stopEvents_eq {textBlockIndex : Nat} {flags : BlockFlags} (numToolCalls : Nat)
    (textIndex : flags.text = true → textBlockIndex = flags.thinking.toNat) :
    stopEvents textBlockIndex flags numToolCalls =
      (if flags.thinking then [.blockDelta 0 .signature] else []) ++
        (List.range (flags.thinking.toNat + flags.text.toNat + numToolCalls)).map .blockStop := by
  obtain ⟨thinking, text⟩ := flags
  cases text with
  | true =>
    rw [textIndex rfl]
    cases thinking <;> simp [stopEvents, range_add, range_succ]
  | false => cases thinking <;> simp [stopEvents, range_add]

theorem eventsAt_stops (index count : Nat) :
    eventsAt index ((List.range count).map .blockStop) =
      if index < count then [.blockStop index] else [] := by
  induction count with
  | zero => rfl
  | succ count ih =>
    rw [range_succ, map_append, eventsAt_append, ih, map_singleton,
      eventsAt_blockStop]
    rcases Nat.lt_trichotomy index count with before | same | beyond
    · rw [if_pos before, if_neg (by omega), if_pos (by omega), append_nil]
    · rw [if_neg (by omega), if_pos same.symm, if_pos (by omega), same]
      rfl
    · rw [if_neg (by omega), if_neg (by omega), if_neg (by omega)]
      rfl

theorem Streams.stops (streams : Streams parts events) (index : Nat) :
    (∀ part, parts[index]? = some part →
      IsBlock index part (eventsAt index (events ++ (List.range parts.length).map .blockStop))) ∧
    (parts.length ≤ index →
      eventsAt index (events ++ (List.range parts.length).map .blockStop) = []) := by
  rw [eventsAt_append, eventsAt_stops]
  constructor
  · intro part here
    obtain ⟨inside, -⟩ := List.getElem?_eq_some_iff.mp here
    rw [if_pos inside]
    exact ⟨_, streams.opened index part here, rfl⟩
  · intro beyond
    rw [if_neg (Nat.not_lt.mpr beyond), streams.unused index beyond, append_nil]

theorem Streams.signature {msg : ChatMsg} (streams : Streams msg.parts events) : Streams msg.parts
      (events ++ if msg.flags.thinking then [.blockDelta 0 .signature] else []) := by
  by_cases none_ : msg.reasoningContent = []
  · rw [ChatMsg.flags, none_]
    simpa using streams
  · have some_ : msg.flags.thinking = true := by
      rw [ChatMsg.flags]
      simp [none_]
    rw [ChatMsg.parts, textPart_of_ne none_, append_assoc, singleton_append] at streams ⊢
    rw [some_]
    rw [← nil_append ((_, _) :: _)] at streams
    have fits : BlockDelta.signature.Fits .thinking := rfl
    simpa [BlockDelta.bytes] using streams.more fits

theorem finalEvents_noStart (textBlockIndex : Nat) (calls : List ToolCall) (flags : BlockFlags)
    (started : List Nat) (diffs : List MsgDiff) :
    .messageStart ∉ finalEvents textBlockIndex calls flags started diffs := by
  induction diffs generalizing flags started with
  | nil => simp [finalEvents]
  | cons diff rest ih =>
    rw [finalEvents, mem_append, mem_append, mem_append, not_or, not_or, not_or]
    refine ⟨⟨⟨textEvents_noStart _ _ _ _ _, textEvents_noStart _ _ _ _ _⟩, ?_⟩, ih _ _⟩
    split
    · exact not_mem_nil
    · rw [mem_append, not_or]
      refine ⟨?_, argumentEvents_noStart _ _⟩
      simp

theorem stopEvents_noStart (textBlockIndex : Nat) (flags : BlockFlags) (numToolCalls : Nat) :
    .messageStart ∉ stopEvents textBlockIndex flags numToolCalls := by
  obtain ⟨thinking, text⟩ := flags
  simp [stopEvents]

theorem SlotStreams.finalResponse (inv : SlotStreams slot) (stop : StopInfo)
    (grows : slot.chatMsg.Grows (slot.chatMsg.updated parsed))
    (meets : FinalMeets slot.chatMsg (slot.chatMsg.updated parsed))
    (started : ∃ rest, slot.events = .messageStart :: rest ∧ .messageStart ∉ rest) :
    ∃ events, sendFinalResponse slot parsed stop = .ok events ∧
      WellFormedStream (slot.chatMsg.updated parsed) events := by
  obtain ⟨diffs, updated, flags, streams⟩ := inv.streams.finalDiffs inv.named grows meets
  rw [← inv.flags] at flags streams
  refine ⟨_, by rw [sendFinalResponse, updated, ok_bind], ?_, ?_⟩
  · obtain ⟨rest, events, once⟩ := started
    refine ⟨_, by rw [events, cons_append, cons_append, cons_append], ?_⟩
    simp only [mem_append, not_or]
    exact ⟨⟨⟨once, finalEvents_noStart _ _ _ _ _⟩, stopEvents_noStart _ _ _⟩, by simp⟩
  generalize slot.chatMsg.updated parsed = new at *
  have textIndex : new.flags.text = true →
      slot.flags.thinking.toNat = new.flags.thinking.toNat := by
    intro written
    have some_ : new.content ≠ [] := by
      intro none_
      rw [ChatMsg.flags, none_] at written
      contradiction
    rw [inv.flags, ChatMsg.flags, ChatMsg.flags]
    obtain ⟨reasoning, moreReasoning⟩ := grows.reasoning
    by_cases none_ : slot.chatMsg.reasoningContent = []
    · have still : new.reasoningContent = [] := by
        by_contra starts
        exact some_ (meets.reasoningFirst none_ starts).1
      rw [none_, still]
    · rw [← moreReasoning, isEmpty_append_eq, isEmpty_eq_false_iff.mpr none_]
      rfl
  have count : new.flags.thinking.toNat + new.flags.text.toNat + new.toolCalls.length =
      new.parts.length := by
    rw [ChatMsg.parts, length_append, length_append, length_textPart, length_textPart,
      length_map]
    rfl
  have closed := (streams.signature).stops
  have ending : ∀ index, eventsAt index [.messageDelta (if stop.isLimit then .maxTokens
      else if new.toolCalls = [] then .endTurn else .toolUse)
      (if stop.stoppingWord = [] then none else some stop.stoppingWord) stop.nDecoded,
      .messageStop] = [] := fun _ => rfl
  rw [flags, stopEvents_eq new.toolCalls.length textIndex, count]
  refine ⟨List.range new.parts.length, nodup_range, ?_, ?_⟩
  · refine List.forall₂_iff_get.mpr ⟨by simp, fun index inside _ => ?_⟩
    rw [get_eq_getElem, getElem_range, eventsAt_append, ending,
      append_nil, ← append_assoc]
    exact (closed index).1 _ (List.getElem?_eq_getElem inside)
  · intro index absent
    rw [eventsAt_append, ending, append_nil, ← append_assoc]
    exact (closed index).2 (Nat.le_of_not_lt fun inside => absent (mem_range.mpr inside))

/-! ## Whole streams -/

def AlongRun (Step : ChatMsg → ChatMsg → Prop) : ChatMsg → List ChatMsg → Prop
  | _, [] => True
  | msg, parsed :: rest => Step msg (msg.updated parsed) ∧ AlongRun Step (msg.updated parsed) rest

def messageAfter (parses : List ChatMsg) : ChatMsg := parses.foldl ChatMsg.updated {}

def StartsOnce (counts : List Nat) : Prop := ∃ rest, counts = 1 :: rest ∧ 1 ∉ rest

theorem SlotStreams.partialResponses (inv : SlotStreams slot) (partials : List (ChatMsg × Nat))
    (grows : AlongRun ChatMsg.Grows slot.chatMsg (partials.map Prod.fst))
    (meets : AlongRun PartialMeets slot.chatMsg (partials.map Prod.fst))
    (later : 1 ∉ partials.map Prod.snd) :
    ∃ final events, Server.partialResponses slot partials = .ok final ∧ SlotStreams final ∧
      final.chatMsg = (partials.map Prod.fst).foldl ChatMsg.updated slot.chatMsg ∧
      final.events = slot.events ++ events ∧ .messageStart ∉ events := by
  induction partials generalizing slot with
  | nil => exact ⟨slot, [], rfl, inv, rfl, (append_nil _).symm, not_mem_nil⟩
  | cons first rest ih =>
    obtain ⟨next, sent, response, nextInv, msg, noStart, events⟩ :=
      inv.partialResponse first.2 grows.1 meets.1
    rw [map_cons, mem_cons, not_or] at later
    rw [if_neg (Ne.symm later.1), append_nil] at events
    obtain ⟨final, more, run, finalInv, finalMsg, finalEvents, moreNoStart⟩ :=
      ih nextInv (by rw [msg]; exact grows.2) (by rw [msg]; exact meets.2) later.2
    refine ⟨final, sent ++ more, ?_, finalInv, ?_, ?_, ?_⟩
    · rw [Server.partialResponses, foldlM_cons, response]
      exact run
    · rw [finalMsg, msg, map_cons, foldl_cons]
    · rw [finalEvents, events, append_assoc]
    · rw [mem_append, not_or]
      exact ⟨noStart, moreNoStart⟩

theorem slotStreams_start : SlotStreams {} where
  flags := rfl
  named := ⟨by simp, by simp⟩
  streams := Streams.nil

/-- The conditions on all parses of a message, the last one for the final response. -/
structure StreamMeets (partials : List (ChatMsg × Nat)) (final : ChatMsg) : Prop where
  startsOnce : StartsOnce (partials.map Prod.snd)
  partialMeets : AlongRun PartialMeets {} (partials.map Prod.fst)
  finalMeets : FinalMeets (messageAfter (partials.map Prod.fst))
    ((messageAfter (partials.map Prod.fst)).updated final)

theorem AlongRun.append {Step : ChatMsg → ChatMsg → Prop} {start : ChatMsg}
    {parses more : List ChatMsg} (run : AlongRun Step start (parses ++ more)) :
    AlongRun Step start parses ∧ AlongRun Step (parses.foldl ChatMsg.updated start) more := by
  induction parses generalizing start with
  | nil => exact ⟨trivial, run⟩
  | cons parsed rest ih =>
    obtain ⟨before, after⟩ := ih run.2
    exact ⟨⟨run.1, before⟩, after⟩

/-- The stream of a growing message is well formed when each parse keeps the earlier parts of the
message in the blocks that they have. -/
theorem anthropicStream_wellFormed (partials : List (ChatMsg × Nat)) (final : ChatMsg)
    (stop : StopInfo)
    (growing : AlongRun ChatMsg.Grows {} (partials.map Prod.fst ++ [final]))
    (meets : StreamMeets partials final) :
    ∃ events, anthropicStream partials final stop = .ok events ∧
      WellFormedStream (messageAfter (partials.map Prod.fst ++ [final])) events := by
  obtain ⟨growsPartials, growsFinal, -⟩ := growing.append
  have lastMsg : messageAfter (partials.map Prod.fst ++ [final]) =
      (messageAfter (partials.map Prod.fst)).updated final := foldl_concat ..
  rw [lastMsg]
  obtain ⟨rest, counts, once⟩ := meets.startsOnce
  have partialMeets := meets.partialMeets
  have finalMeets := meets.finalMeets
  cases partials with
  | nil => contradiction
  | cons first others =>
    rw [map_cons, List.cons.injEq] at counts
    obtain ⟨next, sent, response, nextInv, msg, noStart, events⟩ :=
      slotStreams_start.partialResponse first.2 growsPartials.1 partialMeets.1
    rw [if_pos counts.1] at events
    obtain ⟨slot, more, run, slotInv, slotMsg, slotEvents, moreNoStart⟩ :=
      nextInv.partialResponses others (by rw [msg]; exact growsPartials.2)
        (by rw [msg]; exact partialMeets.2) (by rw [counts.2]; exact once)
    have reached : slot.chatMsg = messageAfter ((first :: others).map Prod.fst) := by
      rw [slotMsg, msg]
      rfl
    have started : ∃ rest, slot.events = .messageStart :: rest ∧ .messageStart ∉ rest := by
      refine ⟨sent ++ more, by rw [slotEvents, events]; rfl, ?_⟩
      rw [mem_append, not_or]
      exact ⟨noStart, moreNoStart⟩
    obtain ⟨all, finished, wellFormed⟩ := slotInv.finalResponse stop
      (by rw [reached]; exact growsFinal) (by rw [reached]; exact finalMeets) started
    rw [reached] at wellFormed
    refine ⟨all, ?_, wellFormed⟩
    rw [anthropicStream, Server.partialResponses, foldlM_cons, response]
    change (Server.partialResponses next others >>= _) = _
    rw [run, ok_bind, finished]

/-- A content of which the second half comes with the final response. -/
theorem anthropicStream_wellFormed_at_content :
    ∃ events, anthropicStream [({ content := [97] }, 1)] { content := [97, 98] } ⟨false, [], 2⟩ =
        .ok events ∧
      WellFormedStream (messageAfter ([({ content := [97] }, 1)].map Prod.fst ++
        [{ content := [97, 98] }])) events := by
  refine anthropicStream_wellFormed [({ content := [97] }, 1)] { content := [97, 98] }
    ⟨false, [], 2⟩ ?_ ⟨⟨[], rfl, not_mem_nil⟩, ⟨?_, trivial⟩, ?_⟩
  · exact ⟨⟨ nil_prefix, nil_prefix, fun _ _ here => by cases here⟩,
      ⟨ nil_prefix, ⟨[98], rfl⟩, fun _ _ here => by cases here⟩, trivial⟩
  · exact ⟨⟨fun _ _ => rfl, rfl, rfl⟩, fun _ _ => ⟨rfl, rfl⟩,
      ⟨fun _ member => absurd member not_mem_nil,
        fun _ member => absurd member not_mem_nil⟩,
      fun _ _ here => by cases here⟩
  · exact ⟨⟨fun none_ => absurd none_ (cons_ne_nil _ _), rfl, rfl⟩, fun _ starts => absurd rfl starts,
      fun _ _ here => by cases here⟩

def oneCall (arguments : Bytes) : ChatMsg :=
  { toolCalls := [{ name := [102], arguments := arguments, id := [49] }] }

/-- The arguments of a tool call that grow with the final response start its block again. -/
theorem final_restarts_call :
    AlongRun ChatMsg.Grows {} [oneCall [123], oneCall [123, 125]] ∧ StartsOnce [1] ∧
      ∀ events, anthropicStream [(oneCall [123], 1)] (oneCall [123, 125]) ⟨false, [], 2⟩ =
        .ok events → ¬ WellFormedStream (oneCall [123, 125]) events := by
  refine ⟨⟨⟨ nil_prefix, nil_prefix, fun _ _ here => by cases here⟩,
    ⟨ nil_prefix, nil_prefix, ?_⟩, trivial⟩, ⟨[], rfl, not_mem_nil⟩, ?_⟩
  · intro i call here
    cases i with
    | zero =>
      cases here
      exact ⟨_, rfl, ⟨[], rfl⟩, ⟨[125], rfl⟩⟩
    | succ i => cases here
  · intro events run wellFormed
    have sent : eventsAt 0 events = [.blockStart 0 (.toolUse [49] [102]),
        .blockDelta 0 (.inputJson [123]), .blockStart 0 (.toolUse [49] [102]),
        .blockDelta 0 (.inputJson [125]), .blockStop 0] := by
      cases run
      rfl
    obtain ⟨indices, -, blocks, others⟩ := wellFormed.blocks
    by_cases here : 0 ∈ indices
    · cases blocks with
      | cons block rest =>
        cases rest
        cases mem_singleton.mp here
        obtain ⟨opened, ⟨start, deltas, -, -, -, deltasOnly⟩, closed⟩ := block
        rw [sent, deltasOnly] at closed
        rcases deltas with _ | ⟨first, _ | ⟨second, rest⟩⟩ <;> simp at closed
    · rw [others 0 here] at sent
      contradiction

end LlamaCpp.Server
