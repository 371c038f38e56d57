/-
UAgent/Api/WireRequest.lean

A request in the words of each wire (src/api/wire_request.cc): the messages, the
tools it offers, and what stands around them (`EncodeWireRequest`), and what the
client adds for its route (`Api::BuildRequestBody`).

The limits on searching are settings, and so are parameters; so is parsing a
JSON text.  Writing a field of a value that can have none throws; nothing is
returned then.
-/
import UAgent.Api.AnthropicRequest
import UAgent.Agent.DuplicateResults
import UAgent.Base.JsonSlot
import UAgent.Core.Strings

namespace UAgent

open Bytes

/-! ### Requests -/

/-- `WireApi` -/
inductive WireApi where
  | chatCompletions
  | responses
  | anthropicMessages
deriving DecidableEq

/-- `WireRequest` -/
structure WireRequest where
  model : Bytes
  messages : Json
  toolSchemas : Json
  reasoningEffort : Bytes := []
  maxOutputTokens : Int64 := -1
  parallelTools : Bool := true
  streamUsage : Bool := false
  nativeWebSearch : Bool := false
  hostedTools : List Json := []
  reasoningSummary : Bool := false
  adaptiveThinking : Bool := false
  promptCacheControl : Bool := false
  forbidToolCalls : Bool := false

/-- The settings a search is limited by. -/
structure SearchLimits where
  maxResults : Int64
  maxUses : Int64

/-! ### Chat Completions -/

/-- `ChatCacheBreakpoint` -/
def chatCacheBreakpoint (message : Json) : Json :=
  match message.get? (lit "content") with
  | some (.str content) =>
    message.set (lit "content") (.arr [.ofFields [(lit "type", .str (lit "text")),
      (lit "text", .str content), (lit "cache_control", cacheControl)]])
  | some (.arr parts) =>
    match parts.getLast? with
    | none => message
    | some last =>
      if jsonValueStr last (lit "type") [] = lit "text" then
        message.set (lit "content")
          (.arr (parts.dropLast ++ [last.set (lit "cache_control") cacheControl]))
      else message
  | _ => message

/-- One round of the loop of `ChatMessages`. -/
def chatMessage (promptCacheControl : Bool) (message : Json) : Json :=
  if message.isObject = false then message
  else
    let plain := (message.erase kWireReplayField).erase kReadRangeField
    let plain := plain.erase kCacheBreakpointField
    if message.contains kCacheBreakpointField && promptCacheControl then chatCacheBreakpoint plain
    else plain

/-- `ChatMessages`, of an array. -/
def chatMessages (messages : List Json) (promptCacheControl : Bool) : List Json :=
  messages.map (chatMessage promptCacheControl)

/-! ### Responses -/

/-- One round of the loop of `ResponsesContent`. -/
def responsesPart (assistant : Bool) (part : Json) : Option Json :=
  let type := jsonValueStr part (lit "type") []
  if type = lit "text" then
    some (.ofFields
      [(lit "type", .str (if assistant then lit "output_text" else lit "input_text")),
        (lit "text", .str (jsonValueStr part (lit "text") []))])
  else if type = lit "image_url" then
    (jsonObject part (lit "image_url")).bind fun image =>
      let url := jsonValueStr image (lit "url") []
      let block := Json.ofFields
        [(lit "type", .str (lit "input_image")), (lit "image_url", .str url)]
      if url = [] then none
      else
        match image.get? (lit "detail") with
        | some detail => some (block.set (lit "detail") detail)
        | none => some block
  else if type = lit "file" then
    (jsonObject part (lit "file")).bind fun file =>
      let block := Json.ofFields [(lit "type", .str (lit "input_file"))]
      match file.get? (lit "filename"), file.get? (lit "file_data") with
      | none, none => none
      | some name, none => some (block.set (lit "filename") name)
      | none, some data => some (block.set (lit "file_data") data)
      | some name, some data =>
        some ((block.set (lit "filename") name).set (lit "file_data") data)
  else none

/-- `ResponsesContent` -/
def responsesContent (content : Json) (assistant : Bool) : List Json :=
  match content with
  | .str text =>
    [.ofFields [(lit "type", .str (if assistant then lit "output_text" else lit "input_text")),
      (lit "text", .str text)]]
  | .arr parts => parts.filterMap (responsesPart assistant)
  | _ => []

/-- The items an assistant's message was, where they are kept. -/
def responsesReplay (message : Json) : List Json :=
  ((matchingReplay message (lit "responses")).bind
    fun replay => jsonArray replay (lit "items")).getD []

/-- One round of the loop over an assistant's calls. -/
def functionCall (replayed : List Bytes) (call : Json) : Option Json :=
  let callId := jsonValueStr call (lit "id") []
  if callId ∈ replayed then none
  else
    (jsonObject call (lit "function")).map fun function =>
      .ofFields
        [(lit "type", .str (lit "function_call")), (lit "call_id", .str callId),
          (lit "name", .str (jsonValueStr function (lit "name") [])),
          (lit "arguments", .str (jsonValueStr function (lit "arguments") []))]

/-- `AppendResponsesMessage`: what it appends. -/
def responsesItems (message : Json) : List Json :=
  let role := jsonValueStr message (lit "role") []
  if role = lit "tool" then
    [.ofFields
      [(lit "type", .str (lit "function_call_output")),
        (lit "call_id", .str (jsonValueStr message (lit "tool_call_id") [])),
        (lit "output", .str (jsonValueStr message (lit "content") []))]]
  else if role ∉ [lit "system", lit "developer", lit "user", lit "assistant"] then []
  else
    let assistant : Bool := role = lit "assistant"
    let replayed := if assistant then responsesReplay message else []
    let calls := (replayed.filter fun item =>
      jsonValueStr item (lit "type") [] = lit "function_call").map
        fun item => jsonValueStr item (lit "call_id") []
    let content := responsesContent (jsonValue message (lit "content") .null) assistant
    let said :=
      if content = [] ∨
          replayed.any fun item => jsonValueStr item (lit "type") [] = lit "message" then []
      else
        [.ofFields [(lit "type", .str (lit "message")), (lit "role", .str role),
          (lit "content", .arr content)]]
    replayed ++ said ++
      if assistant then
        ((jsonArray message (lit "tool_calls")).getD []).filterMap (functionCall calls)
      else []

/-- `ResponsesInput`, of an array. -/
def responsesInput (messages : List Json) : List Json :=
  messages.flatMap fun message => if message.isObject then responsesItems message else []

/-! ### Tools -/

/-- One round of the loop of `FunctionTools`. -/
def functionTool (wireApi : WireApi) (schema : Json) : Option Json :=
  (jsonObject schema (lit "function")).bind fun function =>
    match wireApi with
    | .chatCompletions => some schema
    | .responses =>
      let tool := function.set (lit "type") (.str (lit "function"))
      if jsonValueStr tool (lit "name") [] = [] then none else some tool
    | .anthropicMessages =>
      let tool := Json.ofFields
        [(lit "name", .str (jsonValueStr function (lit "name") [])),
          (lit "input_schema", jsonValue function (lit "parameters") (.obj []))]
      let tool := tool.setIf (function.contains (lit "description")) (lit "description")
        (jsonValue function (lit "description") .null)
      let tool := tool.setIf (function.contains (lit "strict")) (lit "strict")
        (jsonValue function (lit "strict") .null)
      if jsonValueStr tool (lit "name") [] = [] then none else some tool

/-- `FunctionTools` -/
def functionTools (wireApi : WireApi) (schemas : Json) : List Json :=
  schemas.items.filterMap (functionTool wireApi)

/-- The name a tool is offered under. -/
def toolName (tool : Json) : Bytes :=
  jsonValueStr ((jsonObject tool (lit "function")).getD tool) (lit "name") []

section Encoding

variable (parse : Bytes → Option Json) (limits : SearchLimits)

/-- The endpoint's own search. -/
def searchTool : WireApi → Json
  | .responses => .ofFields [(lit "type", .str (lit "web_search"))]
  | .anthropicMessages =>
    .ofFields [(lit "type", .str (lit "web_search_20250305")),
      (lit "name", .str (lit "web_search")), (lit "max_uses", .int limits.maxUses)]
  | .chatCompletions =>
    .ofFields [(lit "type", .str (lit "openrouter:web_search")),
      (lit "parameters", .ofFields
        [(lit "engine", .str (lit "auto")), (lit "max_results", .int limits.maxResults),
          (lit "max_total_results", .int (limits.maxResults * limits.maxUses)),
          (lit "max_uses", .int limits.maxUses)])]

/-- `RequestTools` -/
def requestTools (wireApi : WireApi) (request : WireRequest) : List Json :=
  let tools := functionTools wireApi request.toolSchemas
  if request.nativeWebSearch then tools ++ [searchTool limits wireApi]
  else if request.toolSchemas.items = [] then tools
  else
    request.hostedTools.foldl
      (fun tools hosted =>
        if toolName hosted = [] then tools
        else tools.filter fun tool => toolName tool ≠ toolName hosted) tools ++
      request.hostedTools

/-! ### The body -/

/-- The fields `RequestEnvelope` writes once the tools are written. -/
def WireApi.envelopeFields (wireApi : WireApi) (request : WireRequest) (offered : Bool)
    (body : Json) : Json :=
  let body := body.setIf (offered && request.forbidToolCalls && wireApi ≠ .anthropicMessages)
    (lit "tool_choice") (.str (lit "none"))
  let body := body.setIf (offered && request.parallelTools && wireApi ≠ .anthropicMessages)
    (lit "parallel_tool_calls") (.bool true)
  match wireApi with
  | .chatCompletions =>
    body.setIf request.streamUsage (lit "stream_options")
      (.ofFields [(lit "include_usage", .bool true)])
  | .responses =>
    let body := (body.set (lit "store") (.bool false)).set (lit "include")
      (.arr [.str (lit "reasoning.encrypted_content")])
    let body := body.setIf (0 < request.maxOutputTokens) (lit "max_output_tokens")
      (.int request.maxOutputTokens)
    let effort := Json.ofFields [(lit "effort", .str request.reasoningEffort)]
    let reasoning := if request.reasoningEffort = [] then .null else effort
    let summarized : Bool := request.reasoningSummary && request.reasoningEffort ≠ lit "none"
    let reasoning := reasoning.setIf summarized (lit "summary") (.str (lit "auto"))
    body.setIf (request.reasoningEffort ≠ [] || summarized) (lit "reasoning") reasoning
  | .anthropicMessages =>
    let tokens := if 0 < request.maxOutputTokens then request.maxOutputTokens else 8192
    let body := (body.set (lit "cache_control") cacheControl).set (lit "max_tokens") (.int tokens)
    let asked : Bool := request.reasoningEffort ≠ [] && request.reasoningEffort ≠ lit "none"
    let thinking := (Json.ofFields [(lit "type", .str (lit "adaptive"))]).setIf
      request.reasoningSummary (lit "display") (.str (lit "summarized"))
    let body := body.setIf (asked && request.adaptiveThinking) (lit "thinking") thinking
    body.setIf asked (lit "output_config")
      (.ofFields [(lit "effort", .str request.reasoningEffort)])

/-- `RequestEnvelope` -/
def WireApi.requestEnvelope (wireApi : WireApi) (request : WireRequest) (tools : Json) : Json :=
  let body := Json.ofFields [(lit "model", .str request.model), (lit "stream", .bool true)]
  wireApi.envelopeFields request (!tools.isEmpty) (body.setIf (!tools.isEmpty) (lit "tools") tools)

/-- The field the messages are sent in. -/
def WireApi.messagesField : WireApi → Bytes
  | .responses => lit "input"
  | _ => lit "messages"

/-- The messages of an array, and the texts of those that open the
conversation where these are sent apart. -/
def WireApi.encodeMessages (wireApi : WireApi) (request : WireRequest) (messages : List Json) :
    Option (List Json × Bytes) :=
  match wireApi with
  | .chatCompletions => some (chatMessages messages request.promptCacheControl, [])
  | .responses => some (responsesInput messages, [])
  | .anthropicMessages =>
    (UAgent.anthropicMessages parse messages).map fun made =>
      (made.messages.map anthropicMessage, made.system)

/-- `EncodeWireRequest`; messages that are no array are sent as they are. -/
def WireApi.encodeWireRequest (wireApi : WireApi) (request : WireRequest) : Option Json :=
  let body := wireApi.requestEnvelope request (.arr (requestTools limits wireApi request))
  match request.messages with
  | .arr messages =>
    (wireApi.encodeMessages parse request messages).map fun (encoded, system) =>
      (body.set wireApi.messagesField (.arr encoded)).setIf (system ≠ []) (lit "system")
        (anthropicSystem system)
  | messages => some (body.set wireApi.messagesField messages)

/-- What the Anthropic wire takes of a request. -/
def WireRequest.anthropic (request : WireRequest) : AnthropicRequest where
  model := request.model
  messages := request.messages
  tools := requestTools limits .anthropicMessages request
  reasoningEffort := request.reasoningEffort
  maxOutputTokens := request.maxOutputTokens
  adaptiveThinking := request.adaptiveThinking
  reasoningSummary := request.reasoningSummary

theorem requestEnvelope_anthropic (request : WireRequest) :
    WireApi.anthropicMessages.requestEnvelope request
        (.arr (requestTools limits .anthropicMessages request)) =
      requestEnvelope (request.anthropic limits) := by
  have hoffered : ∀ offered body, WireApi.anthropicMessages.envelopeFields request offered body =
      WireApi.anthropicMessages.envelopeFields request false body := by
    intro offered body
    simp [WireApi.envelopeFields, Json.setIf]
  have htools : (request.anthropic limits).tools = requestTools limits .anthropicMessages request :=
    rfl
  rw [WireApi.requestEnvelope, hoffered, requestEnvelope, htools]
  simp only [WireApi.envelopeFields, Json.setIf, WireRequest.anthropic]
  generalize requestTools limits .anthropicMessages request = tools
  have hempty : (Json.arr tools).isEmpty = decide (tools = []) := by cases tools <;> rfl
  have hasked : (decide (request.reasoningEffort ≠ []) &&
      decide (request.reasoningEffort ≠ lit "none")) =
        !decide (request.reasoningEffort = [] ∨ request.reasoningEffort = lit "none") := by
    simp
  rw [hempty, hasked]
  by_cases hnone : request.reasoningEffort = [] ∨ request.reasoningEffort = lit "none"
  · rw [decide_eq_true hnone]
    cases tools <;> exact (if_pos hnone).symm
  · rw [decide_eq_false hnone]
    cases tools <;> exact (if_neg hnone).symm

/-- On the Anthropic wire a request is encoded as the turns of its conversation. -/
theorem encodeWireRequest_anthropic (request : WireRequest) :
    WireApi.anthropicMessages.encodeWireRequest parse limits request =
      encodeWireRequest parse (request.anthropic limits) := by
  have hmessages : (request.anthropic limits).messages = request.messages := rfl
  rw [WireApi.encodeWireRequest, encodeWireRequest, requestEnvelope_anthropic, hmessages]
  cases request.messages with
  | arr messages =>
    dsimp only
    rw [WireApi.encodeMessages, Option.map_map]
    congr 1
    funext made
    by_cases hsystem : made.system = []
    · simp [Json.setIf, hsystem, WireApi.messagesField]
    · simp [Json.setIf, hsystem, WireApi.messagesField]
  | _ => rfl

/-! ### The client -/

/-- `Feature`, as far as a body is written by it. -/
inductive Feature where
  | providerRouting
  | sessionPassthrough
  | reasoningObject
  | promptCacheControl
  | pdfParser
  | maxCompletionTokens
deriving DecidableEq

/-- `Api`, as far as a body is written from it; `defaultOutputTokens` is the
setting behind `MaxOutputTokens`. -/
structure ApiSettings where
  wireApi : WireApi := .chatCompletions
  model : Bytes
  reasoningEffort : Bytes := []
  features : List Feature := []
  options : Json := .null
  hostedTools : List Json := []
  parallelTools : Bool := true
  streamUsageOption : Bool := true
  reasoningSummary : Bool := false
  adaptiveThinking : Bool := false
  maxOutputTokens : Int64 := 0
  defaultOutputTokens : Int64 := 0
  forbidToolCalls : Bool := false
  nativeWebSearch : Bool := false

/-- `Option` -/
def ApiSettings.option (api : ApiSettings) (key : Bytes) : Bytes := jsonValueStr api.options key []

def ApiSettings.outputCap (api : ApiSettings) : Int64 :=
  if 0 < api.maxOutputTokens then api.maxOutputTokens else api.defaultOutputTokens

/-- The request of `BuildRequestBody`. -/
def ApiSettings.wireRequest (api : ApiSettings) (messages toolSchemas : Json) : WireRequest where
  model := api.model
  messages := messages
  toolSchemas := toolSchemas
  reasoningEffort := api.reasoningEffort
  maxOutputTokens := api.outputCap
  parallelTools := api.parallelTools
  streamUsage := api.streamUsageOption
  nativeWebSearch := api.nativeWebSearch
  hostedTools := api.hostedTools
  reasoningSummary := api.reasoningSummary
  adaptiveThinking := api.adaptiveThinking
  promptCacheControl := .promptCacheControl ∈ api.features
  forbidToolCalls := api.forbidToolCalls

/-- `HasContentPart` -/
def hasContentPart (messages : Json) (type : Bytes) : Bool :=
  messages.items.any fun message =>
    ((jsonArray message (lit "content")).getD []).any fun part =>
      jsonValueStr part (lit "type") [] = type

/-- What `BuildRequestBody` adds to an encoded request. -/
def ApiSettings.completed (api : ApiSettings) (limits : SearchLimits) (messages : Json)
    (sessionId : Bytes) (body : Json) : Json :=
  match api.wireApi with
  | .anthropicMessages => body
  | .responses =>
    body.setIf (sessionId ≠ []) (lit "prompt_cache_key") (.str (hashHex sessionId))
  | .chatCompletions =>
    let body := body.setIf
      (.pdfParser ∈ api.features && api.option (lit "pdf_engine") ≠ [] &&
        hasContentPart messages (lit "file"))
      (lit "plugins")
      (.arr [.ofFields [(lit "id", .str (lit "file-parser")),
        (lit "pdf", .ofFields [(lit "engine", .str (api.option (lit "pdf_engine")))])]])
    let body := body.setIf (.promptCacheControl ∈ api.features) (lit "cache_control") cacheControl
    let body := body.setIf (0 < api.outputCap)
      (if .maxCompletionTokens ∈ api.features then lit "max_completion_tokens"
        else lit "max_tokens")
      (.int api.outputCap)
    let effort := Json.str api.reasoningEffort
    let body :=
      if .reasoningObject ∈ api.features then
        body.setIf (api.reasoningEffort ≠ []) (lit "reasoning") (.ofFields [(lit "effort", effort)])
      else body.setIf (api.reasoningEffort ≠ []) (lit "reasoning_effort") effort
    let body := body.setIf api.nativeWebSearch (lit "max_tool_calls") (.int limits.maxUses)
    let body := body.setIf (.sessionPassthrough ∈ api.features && sessionId ≠ [])
      (lit "session_id") (.str sessionId)
    body.setIf (.providerRouting ∈ api.features && api.option (lit "provider") ≠ [])
      (lit "provider")
      (.ofFields [(lit "order", .arr [.str (api.option (lit "provider"))]),
        (lit "allow_fallbacks", .bool false)])

/-- `BuildRequestBody`, without a cache. -/
def ApiSettings.buildRequestBody (api : ApiSettings) (messages toolSchemas : Json)
    (sessionId : Bytes) : Option Json :=
  (api.wireApi.encodeWireRequest parse limits (api.wireRequest messages toolSchemas)).map
    (api.completed limits messages sessionId)

end Encoding

end UAgent
