/-
UAgent/Api/ToolCalls.lean

Tool calls as a chat-completions stream brings them
(`DecodeChatCompletionsEvent`, src/api/wire_stream.cc): fragments that are
merged into slots, by their index or by the id of their call, and collected
when the response is over (`CollectToolCalls`, src/include/api/stream.h).

What is modelled of an event is what it says about tool calls and why the
response stopped.  Parsing a JSON text is a parameter.
-/
import UAgent.Base.FirstFree
import UAgent.Base.JsonText
import UAgent.Core.Json

namespace UAgent

open Bytes

/-! ### Slots -/

/-- The fields of `ToolCall` that a stream fills. -/
structure StreamedCall where
  id : Bytes := []
  name : Bytes := []
  args : Bytes := []
  /-- what the model sent when it was not a JSON object -/
  malformed : Bytes := []
deriving DecidableEq

/-- `MergeStreamIdentity`: a text that comes whole, again whole, or in pieces. -/
def mergeStreamIdentity (target fragment : Bytes) : Bytes :=
  if fragment = [] then target
  else if target = [] ∨ target <+: fragment then fragment
  else if fragment ≠ target then target ++ fragment
  else target

/-- What a fragment says of its call's function. -/
structure FunctionFragment where
  name : Bytes := []
  arguments : Bytes := []
deriving DecidableEq

/-- An entry of a delta's `tool_calls`; a negative index is none. -/
structure CallFragment where
  index : Int := -1
  id : Bytes := []
  function : Option FunctionFragment := none
deriving DecidableEq

/-- The largest `int`. -/
def intMax : Int := 2 ^ 31 - 1

/-- A fragment as it is read; one that is no object, or whose index is no
`int`, is passed over. -/
def callFragment (toolCall : Json) : Option CallFragment :=
  let index := jsonValueInt64 toolCall (lit "index") (-1)
  if toolCall.isObject = false ∨ intMax < index then none
  else
    some
      { index
        id := jsonValueStr toolCall (lit "id") []
        function := (jsonObject toolCall (lit "function")).map fun found =>
          { name := jsonValueStr found (lit "name") []
            arguments := jsonValueStr found (lit "arguments") [] } }

/-- `StreamToolSlot`: a known id continues its slot, an unseen one opens the
next, and no id continues the newest.  A slot is an `int`; the one behind the
largest is not defined there. -/
def streamToolSlot (calls : List (Int × StreamedCall)) (id : Bytes) : Int :=
  match calls.getLast? with
  | none => 0
  | some newest =>
    if id = [] then newest.1
    else
      match calls.find? fun call => call.2.id = id with
      | some call => call.1
      | none => newest.1 + 1

/-- A call with a fragment merged into it. -/
def mergeFragment (target : StreamedCall) (fragment : CallFragment) : StreamedCall :=
  let target := { target with id := mergeStreamIdentity target.id fragment.id }
  match fragment.function with
  | none => target
  | some found =>
    { target with
      name := mergeStreamIdentity target.name found.name
      args := target.args ++ found.arguments }

/-- The slot a fragment is merged into. -/
def fragmentSlot (calls : List (Int × StreamedCall)) (fragment : CallFragment) : Int :=
  if fragment.index < 0 then streamToolSlot calls fragment.id else fragment.index

/-- A fragment merged into a slot. -/
def mergeInto (calls : List (Int × StreamedCall)) (slot : Int) (fragment : CallFragment) :
    List (Int × StreamedCall) :=
  Assoc.insert slot (mergeFragment ((Assoc.lookup slot calls).getD {}) fragment) calls

/-- One round of the loop over the fragments of an event. -/
def addFragment (calls : List (Int × StreamedCall)) (fragment : CallFragment) :
    List (Int × StreamedCall) :=
  mergeInto calls (fragmentSlot calls fragment) fragment

/-! ### Events -/

/-- `ResponseStopCause` -/
inductive ResponseStopCause where
  | none
  | complete
  | length
  | pause
  | policy
  | inputLimit
  | timeLimit
  | other
deriving DecidableEq

/-- `ClassifyResponseStop` -/
def classifyResponseStop (reason : Bytes) : ResponseStopCause :=
  if reason = [] then .none
  else if reason ∈ [lit "stop", lit "completed", lit "end_turn", lit "tool_calls",
      lit "function_call", lit "tool_use", lit "stop_sequence"] then .complete
  else if reason ∈ [lit "length", lit "max_tokens", lit "max_output_tokens", lit "model_length",
      lit "model_context_window_exceeded"] then .length
  else if reason = lit "pause_turn" then .pause
  else if reason ∈ [lit "content_filter", lit "refusal", lit "safety"] then .policy
  else if reason ∈ [lit "max_prompt_tokens", lit "context_length"] then .inputLimit
  else if reason ∈ [lit "max_time_limit", lit "time_limit"] then .timeLimit
  else .other

/-- What a response has said so far about tool calls, and why it stopped. -/
structure ChatStream where
  finishReason : Bytes := []
  stopCause : ResponseStopCause := .none
  calls : List (Int × StreamedCall) := []
deriving DecidableEq

section Events

variable (parse : Bytes → Option Json)

/-- Whether an event is an error: its own, or one in the text of its message. -/
def isStreamError (value : Json) : Bool :=
  match value.get? (lit "error"), jsonStringRef value (lit "message") with
  | some _, _ => true
  | none, some message =>
    match parse message with
    | some nested => (nested.get? (lit "error")).isSome
    | none => false
  | none, none => false

/-- The first of an event's choices; an event that only says an error has
none. -/
def firstChoice (value : Json) : Option Json :=
  match jsonArray value (lit "choices") with
  | some (choice :: _) => if choice.isObject then some choice else none
  | _ => none

/-- The fragments of a choice. -/
def choiceFragments (choice : Json) : List CallFragment :=
  match jsonObject choice (lit "delta") with
  | none => []
  | some delta => ((jsonArray delta (lit "tool_calls")).getD []).filterMap callFragment

/-- The fragments of an event. -/
def eventFragments (value : Json) : List CallFragment :=
  if isStreamError parse value then [] else ((firstChoice value).map choiceFragments).getD []

/-- `DecodeChatCompletionsEvent`, for tool calls. -/
def decodeEvent (stream : ChatStream) (value : Json) : ChatStream :=
  if isStreamError parse value then stream
  else
    match firstChoice value with
    | none => stream
    | some choice =>
      let stream :=
        match jsonStringRef choice (lit "finish_reason") with
        | some reason =>
          { stream with finishReason := reason, stopCause := classifyResponseStop reason }
        | none => stream
      { stream with calls := (choiceFragments choice).foldl addFragment stream.calls }

/-- A stream of events. -/
def decodeEvents (events : List Json) : ChatStream := events.foldl (decodeEvent parse) {}

/-! ### Collecting the calls -/

/-- What `find_first_not_of` skips before it finds arguments. -/
def isArgSpace (c : UInt8) : Bool := c = 0x20 || c = 0x09 || c = 0x0d || c = 0x0a

/-- The arguments of a call; some models send none for a call that takes none. -/
def callArguments (call : StreamedCall) : Bytes :=
  if call.args.all isArgSpace then lit "\x7b\x7d" else call.args

/-- Whether arguments are a JSON object. -/
def isJsonObject (args : Bytes) : Bool :=
  match parse args with
  | some value => value.isObject
  | none => false

/-- The names tried for a call, in order. -/
def idCandidate (base : Bytes) : Nat → Bytes
  | 0 => base
  | n + 1 => base ++ lit "-" ++ Json.decimal (n + 2)

/-- The id a call is left with, the ids before it being taken. -/
def collectedId (ids : List Bytes) (index : Int) (id : Bytes) : Bytes :=
  firstFree ids (idCandidate (if id = [] then lit "uagent-call-" ++ Json.decimalInt index else id))

/-- A response that was cut. -/
def ResponseStopCause.cuts (cause : ResponseStopCause) : Bool :=
  cause = .length || cause = .inputLimit

/-- The loop of `CollectToolCalls`: the calls that are left, and how many had
no name. -/
def collectFrom (cut : Bool) (ids : List Bytes) :
    List (Int × StreamedCall) → List StreamedCall × Nat
  | [] => ([], 0)
  | (index, call) :: streamed =>
    let args := callArguments call
    let id := collectedId ids index call.id
    if call.name = [] ∨ isJsonObject parse args = false then
      if streamed = [] ∧ cut then ([], 0)
      else if call.name = [] then
        let (calls, nameless) := collectFrom cut ids streamed
        (calls, nameless + 1)
      else
        let (calls, nameless) := collectFrom cut (id :: ids) streamed
        ({ call with id, args := lit "\x7b\x7d", malformed := args } :: calls, nameless)
    else
      let (calls, nameless) := collectFrom cut (id :: ids) streamed
      ({ call with id, args } :: calls, nameless)

/-- `CollectToolCalls`: the calls of a response, and how many had no name. -/
def collectToolCalls (stream : ChatStream) : List StreamedCall × Nat :=
  collectFrom parse stream.stopCause.cuts [] stream.calls

end Events

end UAgent
