import LlamaCpp.Lib.Bytes
import LlamaCpp.Lib.Ensures

/-!
# Anthropic events

While a message is generated it is parsed again and again, and what has grown since the last time
goes out as events of content blocks.  The index of a block is computed from what has been seen so
far when the event is made, in one way for the partial results and in another for the final one.
-/

set_option autoImplicit false

namespace LlamaCpp.Server

open LlamaCpp.Lib

structure ToolCall where
  name : Bytes := []
  arguments : Bytes := []
  id : Bytes := []
deriving DecidableEq, Inhabited

/-- What a parse sets of `common_chat_msg`. -/
structure ChatMsg where
  content : Bytes := []
  reasoningContent : Bytes := []
  toolCalls : List ToolCall := []
deriving DecidableEq

def ChatMsg.isEmpty (msg : ChatMsg) : Bool :=
  msg.content.isEmpty && msg.toolCalls.isEmpty && msg.reasoningContent.isEmpty

/-- `common_chat_msg_diff`; a `tool_call_index` of `npos` is `none`. -/
structure MsgDiff where
  reasoningContentDelta : Bytes := []
  contentDelta : Bytes := []
  toolCall : Option (Nat × ToolCall) := none
deriving DecidableEq

def stringDiff (last current : Bytes) : Except String Bytes :=
  if last = [] then .ok current
  else if ¬ last <+: current then
    if current <+: last then .ok [] else .error "Invalid diff: not found at start"
  else .ok (current.drop last.length)

def trimsReasoning (prv new : ChatMsg) (delta : Bytes) : Bool :=
  decide (prv.content ≠ [] ∧ prv.content <+: delta ∧ new.content <+: prv.content)

def reasoningDiffs (prv new : ChatMsg) : Except String (List MsgDiff) :=
  if prv.reasoningContent = new.reasoningContent then .ok []
  else
    stringDiff prv.reasoningContent new.reasoningContent >>= fun whole =>
      let delta := if trimsReasoning prv new whole then whole.drop prv.content.length else whole
      .ok (if delta = [] then [] else [{ reasoningContentDelta := delta }])

def contentDiffs (prv new : ChatMsg) : Except String (List MsgDiff) :=
  if prv.content = new.content then .ok []
  else
    stringDiff prv.content new.content >>= fun delta =>
      .ok (if delta = [] then [] else [{ contentDelta := delta }])

def toolDiff (idx : Nat) (pref newf : ToolCall) (argsDiff : Bytes) : List MsgDiff :=
  if argsDiff ≠ [] ∨ pref.id ≠ newf.id ∨ pref.name ≠ newf.name then
    [{ toolCall := some (idx,
        if pref.id ≠ newf.id ∨ pref.name ≠ newf.name then ⟨newf.name, argsDiff, newf.id⟩
        else { arguments := argsDiff }) }]
  else []

def lastToolDiffs (prv new : ChatMsg) : Except String (List MsgDiff) :=
  match prv.toolCalls.getLast? with
  | none => .ok []
  | some pref =>
    let idx := prv.toolCalls.length - 1
    let newf := new.toolCalls.getD idx {}
    if pref.name ≠ newf.name ∧ pref.name ≠ [] ∧ newf.name ≠ [] ∧ ¬ pref.name <+: newf.name then
      .error "Invalid diff: tool call mismatch!"
    else
      stringDiff pref.arguments newf.arguments >>= fun argsDiff =>
        .ok (toolDiff idx pref newf argsDiff)

def newToolDiffs (idx : Nat) : List ToolCall → List MsgDiff
  | [] => []
  | call :: rest => { toolCall := some (idx, call) } :: newToolDiffs (idx + 1) rest

def computeDiffs (prv new : ChatMsg) : Except String (List MsgDiff) :=
  reasoningDiffs prv new >>= fun reasoning =>
  contentDiffs prv new >>= fun content =>
  if new.toolCalls.length < prv.toolCalls.length then
    .error "Invalid diff: now finding less tool calls!"
  else
    lastToolDiffs prv new >>= fun last =>
      .ok (reasoning ++ content ++ last ++
        newToolDiffs prv.toolCalls.length (new.toolCalls.drop prv.toolCalls.length))

inductive ContentBlock
  | thinking
  | text
  | toolUse (id name : Bytes)
deriving DecidableEq

inductive BlockDelta
  | thinking (text : Bytes)
  | text (text : Bytes)
  | inputJson (text : Bytes)
  | signature
deriving DecidableEq

inductive StopReason
  | maxTokens
  | endTurn
  | toolUse
deriving DecidableEq

inductive AnthropicEvent
  | messageStart
  | blockStart (index : Nat) (block : ContentBlock)
  | blockDelta (index : Nat) (delta : BlockDelta)
  | blockStop (index : Nat)
  | messageDelta (stopReason : StopReason) (stopSequence : Option Bytes) (outputTokens : Nat)
  | messageStop
deriving DecidableEq

structure BlockFlags where
  thinking : Bool := false
  text : Bool := false
deriving DecidableEq

def textEvents (index : Nat) (block : ContentBlock) (delta : Bytes → BlockDelta) (started : Bool)
    (more : Bytes) : List AnthropicEvent :=
  if more = [] then []
  else (if started then [] else [.blockStart index block]) ++ [.blockDelta index (delta more)]

def argumentEvents (index : Nat) (arguments : Bytes) : List AnthropicEvent :=
  if arguments = [] then [] else [.blockDelta index (.inputJson arguments)]

def BlockFlags.after (flags : BlockFlags) (diff : MsgDiff) : BlockFlags where
  thinking := flags.thinking || !diff.reasoningContentDelta.isEmpty
  text := flags.text || !diff.contentDelta.isEmpty

def callEvents (index : Nat) (call : ToolCall) : List AnthropicEvent :=
  (if call.name = [] then [] else [.blockStart index (.toolUse call.id call.name)]) ++
    argumentEvents index call.arguments

/-- The loop of `to_json_anthropic_partial`. -/
def partialEvents (hasReasoning : Bool) : BlockFlags → List MsgDiff → List AnthropicEvent
  | _, [] => []
  | flags, diff :: rest =>
    let after := flags.after diff
    textEvents 0 .thinking .thinking flags.thinking diff.reasoningContentDelta ++
      textEvents hasReasoning.toNat .text .text flags.text diff.contentDelta ++
      (match diff.toolCall with
      | none => []
      | some (i, call) => callEvents (hasReasoning.toNat + after.text.toNat + i) call) ++
      partialEvents hasReasoning after rest

/-- The loop of `to_json_anthropic_stream`; `calls` are the tool calls of the final message. -/
def finalEvents (textBlockIndex : Nat) (calls : List ToolCall) :
    BlockFlags → List Nat → List MsgDiff → List AnthropicEvent
  | _, _, [] => []
  | flags, started, diff :: rest =>
    let after := flags.after diff
    textEvents 0 .thinking .thinking flags.thinking diff.reasoningContentDelta ++
      textEvents textBlockIndex .text .text flags.text diff.contentDelta ++
      (match diff.toolCall with
      | none => []
      | some (i, call) =>
        let index := after.thinking.toNat + after.text.toNat + i
        let full := calls.getD i {}
        (if i ∈ started then [] else [.blockStart index (.toolUse full.id full.name)]) ++
          argumentEvents index call.arguments) ++
      finalEvents textBlockIndex calls after
        (started ++ (diff.toolCall.map Prod.fst).toList) rest

def stopEvents (textBlockIndex : Nat) (flags : BlockFlags) (numToolCalls : Nat) :
    List AnthropicEvent :=
  (if flags.thinking then [.blockDelta 0 .signature, .blockStop 0] else []) ++
    (if flags.text then [.blockStop textBlockIndex] else []) ++
    (List.range numToolCalls).map fun i =>
      .blockStop (flags.thinking.toNat + flags.text.toNat + i)

structure AnthropicSlot where
  chatMsg : ChatMsg := {}
  flags : BlockFlags := {}
  events : List AnthropicEvent := []
deriving DecidableEq

def ChatMsg.updated (old parsed : ChatMsg) : ChatMsg := if parsed.isEmpty then old else parsed

def updateChatMsg (old parsed : ChatMsg) : Except String (List MsgDiff) :=
  if parsed.isEmpty then .ok [] else computeDiffs old parsed

/-- `send_partial_response` and `to_json_anthropic_partial`. -/
def sendPartialResponse (slot : AnthropicSlot) (parsed : ChatMsg) (nDecoded : Nat) :
    Except String AnthropicSlot :=
  updateChatMsg slot.chatMsg parsed >>= fun diffs =>
    let msg := slot.chatMsg.updated parsed
    let start := if nDecoded = 1 then [.messageStart] else []
    .ok {
      chatMsg := msg
      flags := diffs.foldl BlockFlags.after slot.flags
      events := slot.events ++ start ++
        partialEvents (!msg.reasoningContent.isEmpty) slot.flags diffs }

/-- How the generation ended, with the stopping word and the number of tokens. -/
structure StopInfo where
  isLimit : Bool
  stoppingWord : Bytes
  nDecoded : Nat

/-- `send_final_response` and `to_json_anthropic_stream`: all events of the message. -/
def sendFinalResponse (slot : AnthropicSlot) (parsed : ChatMsg) (stop : StopInfo) :
    Except String (List AnthropicEvent) :=
  updateChatMsg slot.chatMsg parsed >>= fun diffs =>
    let msg := slot.chatMsg.updated parsed
    let textBlockIndex := slot.flags.thinking.toNat
    let reason : StopReason := if stop.isLimit then .maxTokens
      else if msg.toolCalls = [] then .endTurn else .toolUse
    let sequence := if stop.stoppingWord = [] then none else some stop.stoppingWord
    .ok (slot.events ++ finalEvents textBlockIndex msg.toolCalls slot.flags [] diffs ++
      stopEvents textBlockIndex (diffs.foldl BlockFlags.after slot.flags) msg.toolCalls.length ++
      [.messageDelta reason sequence stop.nDecoded, .messageStop])

def partialResponses (slot : AnthropicSlot) (partials : List (ChatMsg × Nat)) :
    Except String AnthropicSlot :=
  partials.foldlM (fun slot parsed => sendPartialResponse slot parsed.1 parsed.2) slot

/-- The events of a message: partial responses, each with the parse and the number of tokens, and
the final response. -/
def anthropicStream (partials : List (ChatMsg × Nat)) (final : ChatMsg) (stop : StopInfo) :
    Except String (List AnthropicEvent) :=
  partialResponses {} partials >>= fun slot => sendFinalResponse slot final stop

inductive BlockPart
  | thinking
  | text
  | tool (id : Bytes)
deriving DecidableEq

def ContentBlock.part : ContentBlock → BlockPart
  | .thinking => .thinking
  | .text => .text
  | .toolUse id _ => .tool id

def BlockDelta.Fits : BlockDelta → BlockPart → Prop
  | .thinking _, part => part = .thinking
  | .signature, part => part = .thinking
  | .text _, part => part = .text
  | .inputJson _, part => ∃ id, part = .tool id

def BlockDelta.bytes : BlockDelta → Bytes
  | .thinking more => more
  | .text more => more
  | .inputJson more => more
  | .signature => []

def AnthropicEvent.isAt (index : Nat) : AnthropicEvent → Bool
  | .blockStart i _ => i == index
  | .blockDelta i _ => i == index
  | .blockStop i => i == index
  | _ => false

def eventsAt (index : Nat) (events : List AnthropicEvent) : List AnthropicEvent :=
  events.filter (AnthropicEvent.isAt index)

def textPart (part : BlockPart) (text : Bytes) : List (BlockPart × Bytes) :=
  if text = [] then [] else [(part, text)]

def ToolCall.part (call : ToolCall) : BlockPart × Bytes := (.tool call.id, call.arguments)

def ChatMsg.parts (msg : ChatMsg) : List (BlockPart × Bytes) :=
  textPart .thinking msg.reasoningContent ++ textPart .text msg.content ++
    msg.toolCalls.map ToolCall.part

def IsOpenBlock (index : Nat) (part : BlockPart × Bytes) (events : List AnthropicEvent) : Prop :=
  ∃ (block : ContentBlock) (deltas : List BlockDelta),
    block.part = part.1 ∧ (∀ delta ∈ deltas, delta.Fits part.1) ∧
      deltas.flatMap BlockDelta.bytes = part.2 ∧
      events = .blockStart index block :: deltas.map (.blockDelta index)

def IsBlock (index : Nat) (part : BlockPart × Bytes) (events : List AnthropicEvent) : Prop :=
  ∃ opened, IsOpenBlock index part opened ∧ events = opened ++ [.blockStop index]

/-- The message starts first and once, and every part of the message has an index of its own with
exactly its block there. -/
structure WellFormedStream (msg : ChatMsg) (events : List AnthropicEvent) : Prop where
  started : ∃ rest, events = .messageStart :: rest ∧ .messageStart ∉ rest
  blocks : ∃ indices : List Nat, indices.Nodup ∧
    List.Forall₂ (fun part index => IsBlock index part (eventsAt index events)) msg.parts indices ∧
    ∀ index, index ∉ indices → eventsAt index events = []

end LlamaCpp.Server
