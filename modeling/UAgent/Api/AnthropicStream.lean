/-
UAgent/Api/AnthropicStream.lean

An Anthropic response as it streams in (`DecodeAnthropicEvent`,
src/api/wire_stream.cc): content blocks that start, grow and stop, each under
its index, the calls among them, and the replay made of the blocks.

What `ApplyStreamError` makes of an error is left out; the error is kept.
Parsing a JSON text is a parameter.
-/
import UAgent.Api.ReasoningStream
import UAgent.Api.ToolCalls
import UAgent.Base.JsonPath

namespace UAgent

open Bytes

/-! ### Hosted tools -/

/-- `HostedToolPhase` -/
inductive HostedToolPhase where
  | none
  | started
  | searching
  | completed
  | failed
deriving DecidableEq

/-- `HostedToolRank` -/
def hostedToolRank : HostedToolPhase → Int
  | .none => -1
  | .started => 0
  | .searching => 1
  | .completed => 2
  | .failed => 2

/-- `HostedToolDelta`: a step of a tool that the provider runs. -/
structure HostedToolDelta where
  tool : Bytes
  phase : HostedToolPhase
  id : Bytes
  /-- negative when the provider does not say -/
  sourceCount : Int
deriving DecidableEq

/-- `HostedToolState` -/
structure HostedToolState where
  phases : List (Bytes × HostedToolPhase) := []
  webSearches : Nat := 0
deriving DecidableEq

/-- `HostedToolKey` -/
def hostedToolKey (id : Bytes) (slot : Int) : Bytes :=
  if id = [] then ch '#' :: Json.decimalInt slot else id

/-- `MarkHostedTool`: a step that takes its tool on is reported. -/
def markHostedTool (state : HostedToolState) (key id : Bytes) (phase : HostedToolPhase)
    (sourceCount : Int) (tool : Bytes) : HostedToolState × Option HostedToolDelta :=
  let tracked := (Assoc.lookup key state.phases).getD .none
  if hostedToolRank phase ≤ hostedToolRank tracked then
    ({ state with phases := Assoc.insert key tracked state.phases }, none)
  else
    ({ phases := Assoc.insert key phase state.phases
       webSearches :=
        if tracked = .none ∧ tool = lit "web_search" then state.webSearches + 1
        else state.webSearches },
      some { tool, phase, id, sourceCount })

/-! ### The stream -/

/-- `AnthropicBlockState` -/
structure AnthropicBlock where
  block : Json := .obj []
  /-- the input of a tool that the provider runs, as it streams -/
  input : Bytes := []
deriving DecidableEq

/-- `AnthropicStreamState`, the calls and what the result is told. -/
structure AnthropicStream where
  blocks : List (Int × AnthropicBlock) := []
  hosted : HostedToolState := {}
  openSearch : Bytes := []
  calls : List (Int × StreamedCall) := []
  generationId : Bytes := []
  usage : Json := .null
  finishReason : Bytes := []
  stopCause : ResponseStopCause := .none
  reasoningField : Bool := false
  annotations : List Json := []
  semanticProgress : Bool := false
  /-- the content of `replay` -/
  replay : Option (List Json) := none
  /-- what the stream failed with -/
  error : Option Json := none
deriving DecidableEq

/-- `WireStreamDelta` -/
structure WireStreamDelta where
  content : Bytes := []
  reasoning : Bytes := []
  reasoningParts : List ReasoningDelta := []
  toolArguments : Bool := false
  activity : Bool := false
  hostedTool : Option HostedToolDelta := none
deriving DecidableEq

/-- `AddReasoningDelta`, for the thinking of a block. -/
def thinkingDelta (index : Int) (text : Bytes) (complete : Bool := false) : WireStreamDelta where
  reasoning := text
  reasoningParts :=
    [{ part := lit "thinking/" ++ Json.decimalInt index
       kind := lit "reasoning"
       text
       complete }]
  activity := true

mutual

/-- `MergeObject` -/
def mergeObject (target : Json) : Json → Json
  | .obj fields => mergeMembers target.asObject fields
  | _ => target

def mergeMembers (target : Json) : List (Bytes × Json) → Json
  | [] => target
  | (key, value) :: fields =>
    let merged :=
      match target.get? key with
      | some (.obj held) => if value.isObject then mergeObject (.obj held) value else value
      | _ => value
    mergeMembers (target.set key merged) fields

end

/-- `BackfillSearchCount` -/
def backfillSearchCount (usage : Json) (key : Bytes) (searches : Nat) : Json :=
  let reported := ((jsonObject usage key).map fun found =>
    jsonValueInt64 found (lit "web_search_requests") 0).getD 0
  if searches = 0 ∨ 0 < reported then usage
  else
    let nested := ((usage.asObject.get? key).getD .null).asObject
    usage.asObject.set key (nested.set (lit "web_search_requests") (.int (Int64.ofNat searches)))

/-- `SetAnthropicReplay`: the blocks in the order of their indices. -/
def setAnthropicReplay (s : AnthropicStream) : AnthropicStream :=
  { s with
    replay := some (s.blocks.filterMap fun e =>
      if e.2.block.isEmpty then none else some e.2.block) }

/-- `AnthropicCitation` -/
def anthropicCitation (citation : Json) : Option Json :=
  let url := jsonValueStr citation (lit "url") []
  if citation.isObject = false ∨ url = [] then none
  else
    some (.ofFields [(lit "type", .str (lit "url_citation")), (lit "url", .str url),
      (lit "title", .str (jsonValueStr citation (lit "title") [])),
      (lit "content", .str (jsonValueStr citation (lit "cited_text") []))])

/-- `AddStreamAnnotation` -/
def addStreamAnnotation (s : AnthropicStream) (cited : Json) : AnthropicStream :=
  if cited.isObject = false ∨ s.annotations.any (Json.eqv · cited) then s
  else { s with annotations := s.annotations ++ [cited], semanticProgress := true }

/-! ### A block starts -/

section Start

variable [DoubleText]

/-- The call of a block that starts. -/
def startCall (held : Option StreamedCall) (started : Json) : Option StreamedCall :=
  if jsonValueStr started (lit "type") [] = lit "tool_use" then
    let call := held.getD {}
    some
      { call with
        id := jsonValueStr started (lit "id") []
        name := jsonValueStr started (lit "name") []
        args :=
          match started.get? (lit "input") with
          | some input => if input.isEmpty then call.args else input.dump
          | none => call.args }
  else held

end Start

/-- Whether what a tool found is an error. -/
def failedWith (found : Option Json) (isError : Bytes → Bool) : HostedToolPhase :=
  match found with
  | some outcome => if isError (jsonValueStr outcome (lit "type") []) then .failed else .completed
  | none => .completed

/-- What a block that starts says of the provider's own tools: the key of the
search that it opens and the step that it takes. -/
def startHosted (s : AnthropicStream) (index : Int) (started : Json) :
    AnthropicStream × Option HostedToolDelta :=
  let type := jsonValueStr started (lit "type") []
  let name := jsonValueStr started (lit "name") []
  let mark (s : AnthropicStream) (key id : Bytes) (phase : HostedToolPhase) (sourceCount : Int)
      (tool : Bytes) : AnthropicStream × Option HostedToolDelta :=
    let (hosted, step) := markHostedTool s.hosted key id phase sourceCount tool
    ({ s with hosted }, step)
  if type = lit "server_tool_use" ∧ name = lit "web_search" then
    let id := jsonValueStr started (lit "id") []
    let key := hostedToolKey id index
    mark { s with openSearch := key } key id .searching (-1) (lit "web_search")
  else if type = lit "web_search_tool_result" then
    let id := jsonValueStr started (lit "tool_use_id") []
    let key := if id = [] ∧ s.openSearch ≠ [] then s.openSearch else hostedToolKey id index
    let sources : Int :=
      match jsonArray started (lit "content") with
      | some items => items.length
      | none => -1
    let phase := failedWith (jsonObject started (lit "content"))
      (· = lit "web_search_tool_result_error")
    mark s key id phase sources (lit "web_search")
  else if type = lit "server_tool_use" then
    let id := jsonValueStr started (lit "id") []
    mark s (hostedToolKey id index) id .started (-1) name
  else if (lit "_tool_result").isSuffixOf type then
    let id := jsonValueStr started (lit "tool_use_id") []
    let phase := failedWith (jsonObject started (lit "content")) (lit "_error").isSuffixOf
    mark s (hostedToolKey id index) id phase (-1) (type.take (type.length - 12))
  else (s, none)

section Events

variable [DoubleText] (parse : Bytes → Option Json)

/-- The calls with what has come of one of them. -/
def setCall (calls : List (Int × StreamedCall)) (index : Int) :
    Option StreamedCall → List (Int × StreamedCall)
  | some call => Assoc.insert index call calls
  | none => calls

/-- `content_block_start` -/
def startBlock (s : AnthropicStream) (index : Int) (held : AnthropicBlock) (started : Json) :
    AnthropicStream × WireStreamDelta :=
  let type := jsonValueStr started (lit "type") []
  let s :=
    { s with
      blocks := Assoc.insert index { held with block := started } s.blocks
      calls := setCall s.calls index (startCall (Assoc.lookup index s.calls) started) }
  if type = lit "text" then
    (s, { content := jsonValueStr started (lit "text") [], activity := true })
  else if type = lit "thinking" then
    ({ s with reasoningField := true },
      thinkingDelta index (jsonValueStr started (lit "thinking") []))
  else if type = lit "tool_use" then (s, { toolArguments := true, activity := true })
  else
    let (s, hostedTool) := startHosted s index started
    (s, { activity := true, hostedTool })

/-! ### A block grows -/

/-- `block.block[key]` with a piece of text. -/
def appendPiece (block : Json) (key piece : Bytes) : Json :=
  match block.get? key with
  | some (.str text) => block.set key (.str (text ++ piece))
  | _ => block.set key (.str piece)

/-- `block.block["citations"]` with a citation. -/
def appendCitation (block citation : Json) : Json :=
  match block.get? (lit "citations") with
  | some (.arr items) => block.set (lit "citations") (.arr (items ++ [citation]))
  | some .null | none => block.set (lit "citations") (.arr [citation])
  | some _ => block

/-- The citation that a delta brings. -/
def citationOf (delta : Json) : Option Json :=
  match delta.get? (lit "citation") with
  | some (.obj fields) => some (.obj fields)
  | _ => none

/-- What a delta makes of its block. -/
def growBlock (held : AnthropicBlock) (delta : Json) : AnthropicBlock :=
  let type := jsonValueStr delta (lit "type") []
  if type = lit "text_delta" then
    { held with
      block := appendPiece held.block (lit "text") (jsonValueStr delta (lit "text") []) }
  else if type = lit "input_json_delta" then
    if jsonValueStr held.block (lit "type") [] = lit "tool_use" then held
    else { held with input := held.input ++ jsonValueStr delta (lit "partial_json") [] }
  else if type = lit "thinking_delta" then
    { held with
      block := appendPiece held.block (lit "thinking") (jsonValueStr delta (lit "thinking") []) }
  else if type = lit "signature_delta" then
    { held with
      block := appendPiece held.block (lit "signature") (jsonValueStr delta (lit "signature") []) }
  else if type = lit "citations_delta" then
    match citationOf delta with
    | some citation => { held with block := appendCitation held.block citation }
    | none => held
  else held

/-- What a delta makes of the call of its block: only the agent's own tools
are calls to run here. -/
def growCall (held : AnthropicBlock) (call : Option StreamedCall) (delta : Json) :
    Option StreamedCall :=
  if jsonValueStr delta (lit "type") [] = lit "input_json_delta" ∧
      jsonValueStr held.block (lit "type") [] = lit "tool_use" then
    let call := call.getD {}
    some { call with args := call.args ++ jsonValueStr delta (lit "partial_json") [] }
  else call

/-- `content_block_delta` -/
def deltaBlock (s : AnthropicStream) (index : Int) (held : AnthropicBlock) (delta : Json) :
    AnthropicStream × WireStreamDelta :=
  let type := jsonValueStr delta (lit "type") []
  let s :=
    { s with
      blocks := Assoc.insert index (growBlock held delta) s.blocks
      calls := setCall s.calls index (growCall held (Assoc.lookup index s.calls) delta) }
  if type = lit "text_delta" then
    (s, { content := jsonValueStr delta (lit "text") [], activity := true })
  else if type = lit "input_json_delta" then
    (s, { toolArguments := jsonValueStr held.block (lit "type") [] = lit "tool_use"
          activity := true })
  else if type = lit "thinking_delta" then
    ({ s with reasoningField := true },
      thinkingDelta index (jsonValueStr delta (lit "thinking") []))
  else if type = lit "citations_delta" then
    match (citationOf delta).bind anthropicCitation with
    | some cited => ( addStreamAnnotation s cited, { activity := true })
    | none => (s, { activity := true })
  else (s, { activity := true })

/-! ### A block stops -/

/-- The call of a block that stops: without arguments it takes the block's
input. -/
def stopCall (held : AnthropicBlock) (call : Option StreamedCall) : Option StreamedCall :=
  if jsonValueStr held.block (lit "type") [] = lit "tool_use" then
    let call := call.getD {}
    match held.block.get? (lit "input") with
    | some input => some (if call.args = [] then { call with args := input.dump } else call)
    | none => some call
  else call

/-- The block with its input, once that can be parsed. -/
def parseInput (held : AnthropicBlock) (text : Bytes) : AnthropicBlock :=
  match parse text with
  | some input => { held with block := held.block.set (lit "input") input }
  | none => held

/-- A block that stops. -/
def stoppedBlock (held : AnthropicBlock) (call : Option StreamedCall) : AnthropicBlock :=
  if jsonValueStr held.block (lit "type") [] = lit "tool_use" then
    parseInput parse held ((stopCall held call).getD {}).args
  else if held.input = [] then held
  else parseInput parse held held.input

/-- `content_block_stop` -/
def stopBlock (s : AnthropicStream) (index : Int) (held : AnthropicBlock) :
    AnthropicStream × WireStreamDelta :=
  let call := Assoc.lookup index s.calls
  let s :=
    { s with
      blocks := Assoc.insert index (stoppedBlock parse held call) s.blocks
      calls := setCall s.calls index (stopCall held call) }
  (setAnthropicReplay s,
    if jsonValueStr held.block (lit "type") [] = lit "thinking" then thinkingDelta index [] true
    else { activity := true })

/-! ### Events -/

/-- The index of an event, when it is an `int` from 0. -/
def eventIndex (value : Json) : Option Int :=
  let index := jsonValueInt64 value (lit "index") (-1)
  if index < 0 ∨ intMax < index then none else some index

/-- `message_delta` -/
def messageDelta (s : AnthropicStream) (value : Json) : AnthropicStream :=
  let s :=
    match jsonObject value (lit "delta") with
    | some delta =>
      let reason := jsonValueStr delta (lit "stop_reason") []
      { s with finishReason := reason, stopCause := classifyResponseStop reason }
    | none => s
  match value.get? (lit "usage") with
  | some usage => { s with usage := mergeObject s.usage usage }
  | none => s

/-- `message_stop` -/
def messageStop (s : AnthropicStream) : AnthropicStream :=
  let s := setAnthropicReplay s
  { s with usage := backfillSearchCount s.usage (lit "server_tool_use") s.hosted.webSearches }

/-- `message_start` -/
def messageStart (s : AnthropicStream) (value : Json) : AnthropicStream :=
  match jsonObject value (lit "message") with
  | some message =>
    let s := { s with generationId := jsonValueStr message (lit "id") [] }
    match message.get? (lit "usage") with
    | some usage => { s with usage := mergeObject s.usage usage }
    | none => s
  | none => s

/-- An event of the block under `index`. -/
def blockEvent (s : AnthropicStream) (index : Int) (value : Json) :
    AnthropicStream × WireStreamDelta :=
  let type := jsonValueStr value (lit "type") []
  let held := (Assoc.lookup index s.blocks).getD {}
  -- the block is there from now on, whatever the event
  let s := { s with blocks := Assoc.insert index held s.blocks }
  if type = lit "content_block_start" then
    match jsonObject value (lit "content_block") with
    | some started => startBlock s index held started
    | none => (s, {})
  else if type = lit "content_block_delta" then
    match jsonObject value (lit "delta") with
    | some delta => deltaBlock s index held delta
    | none => (s, {})
  else if type = lit "content_block_stop" then stopBlock parse s index held
  else (s, {})

/-- `DecodeAnthropicEvent` -/
def decodeAnthropicEvent (s : AnthropicStream) (value : Json) : AnthropicStream × WireStreamDelta :=
  let type := jsonValueStr value (lit "type") []
  if value.isObject = false then (s, {})
  else if type = lit "error" then
    ({ s with error := some ((value.get? (lit "error")).getD value) }, {})
  else if type = lit "message_start" then (messageStart s value, { activity := true })
  else
    match eventIndex value with
    | some index => blockEvent parse s index value
    | none =>
      if type = lit "message_delta" then (messageDelta s value, { activity := true })
      else if type = lit "message_stop" then (messageStop s, { activity := true })
      else (s, {})

/-- A stream of events, with what each one brings. -/
def decodeAnthropicEvents (s : AnthropicStream) :
    List Json → AnthropicStream × List WireStreamDelta
  | [] => (s, [])
  | value :: values =>
    let (s, delta) := decodeAnthropicEvent parse s value
    let (s, deltas) := decodeAnthropicEvents s values
    (s, delta :: deltas)

end Events

end UAgent
