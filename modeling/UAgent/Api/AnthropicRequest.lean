/-
UAgent/Api/AnthropicRequest.lean

A conversation as the Anthropic wire takes it (src/api/wire_request.cc): the
system messages that open it in a field of their own, and the others as blocks
of user and assistant messages that take turns (`AnthropicMessages`,
`EncodeWireRequest`).

Parsing a JSON text is a parameter, and so are the tools a request offers.
Writing a field of a value that can have none throws; nothing is returned then.
-/
import UAgent.Base.Groups
import UAgent.Core.Json

namespace UAgent

open Bytes

/-! ### Fields -/

/-- `kWireReplayField` -/
def kWireReplayField : Bytes := lit "_uagent_wire_replay"

/-- `kCacheBreakpointField` -/
def kCacheBreakpointField : Bytes := lit "_uagent_cache_breakpoint"

/-- `kHarnessNoteMarker` -/
def kHarnessNoteMarker : Bytes := lit "[harness note, not a user message] "

/-- `MatchingReplay` -/
def matchingReplay (message : Json) (wireApi : Bytes) : Option Json :=
  (jsonObject message kWireReplayField).filter fun replay =>
    jsonValueStr replay (lit "wire_api") [] = wireApi

/-- `CacheControl` -/
def cacheControl : Json := .ofFields [(lit "type", .str (lit "ephemeral"))]

/-! ### Blocks -/

/-- `DataUri`: the media type and the data of a base64 data URI. -/
def dataUri (uri : Bytes) : Option (Bytes × Bytes) :=
  if lit "data:" <+: uri then
    let rest := uri.drop 5
    match find (lit ";base64,") rest with
    | none | some 0 => none
    | some split =>
      let data := rest.drop (split + 8)
      if data = [] then none else some (rest.take split, data)
  else none

/-- A block of text. -/
def textBlock (text : Bytes) : Json :=
  .ofFields [(lit "type", .str (lit "text")), (lit "text", .str text)]

/-- Data that comes with the request. -/
def base64Source (mediaType data : Bytes) : Json :=
  .ofFields [(lit "type", .str (lit "base64")), (lit "media_type", .str mediaType),
    (lit "data", .str data)]

/-- The block of an image. -/
def imageBlock (image : Json) : Option Json :=
  let url := jsonValueStr image (lit "url") []
  let block (source : Json) : Json :=
    .ofFields [(lit "type", .str (lit "image")), (lit "source", source)]
  match dataUri url with
  | some (mediaType, data) => some (block (base64Source mediaType data))
  | none =>
    if url = [] then none
    else some (block (.ofFields [(lit "type", .str (lit "url")), (lit "url", .str url)]))

/-- The block of a file. -/
def documentBlock (file : Json) : Option Json :=
  (dataUri (jsonValueStr file (lit "file_data") [])).map fun (mediaType, data) =>
    let block := Json.ofFields
      [(lit "type", .str (lit "document")), (lit "source", base64Source mediaType data)]
    match file.get? (lit "filename") with
    | some name => block.set (lit "title") name
    | none => block

/-- One round of the loop over a content's parts. -/
def anthropicPart (part : Json) : Option Json :=
  let type := jsonValueStr part (lit "type") []
  if type = lit "text" then some (textBlock (jsonValueStr part (lit "text") []))
  else if type = lit "image_url" then (jsonObject part (lit "image_url")).bind imageBlock
  else if type = lit "file" then (jsonObject part (lit "file")).bind documentBlock
  else none

/-- `AnthropicContent` -/
def anthropicContent : Json → List Json
  | .str text => [textBlock text]
  | .arr parts => parts.filterMap anthropicPart
  | _ => []

/-- `AnthropicCacheBreakpoint`: a message that ends the cached prefix says so
in its last block; a thinking block cannot. -/
def anthropicCacheBreakpoint (message : Json) (blocks : List Json) : Option (List Json) :=
  if message.contains kCacheBreakpointField = false then some blocks
  else
    match blocks.getLast? with
    | none => some blocks
    | some last =>
      if lit "thinking" <:+ jsonValueStr last (lit "type") [] then some blocks
      else if last.isObject ∨ last = .null then
        some (blocks.dropLast ++ [last.set (lit "cache_control") cacheControl])
      else none

/-! ### Messages -/

/-- The roles of the Anthropic wire. -/
inductive AnthropicRole where
  | user
  | assistant
deriving DecidableEq

def AnthropicRole.text : AnthropicRole → Bytes
  | .user => lit "user"
  | .assistant => lit "assistant"

/-- `AppendAnthropicMessage`: no blocks are no message, and blocks of the
newest message's role join it. -/
def appendAnthropicMessage (messages : List (AnthropicRole × List Json)) (role : AnthropicRole)
    (blocks : List Json) : List (AnthropicRole × List Json) :=
  Groups.put messages role blocks

/-- A message of the body. -/
def anthropicMessage (message : AnthropicRole × List Json) : Json :=
  .ofFields [(lit "role", .str message.1.text), (lit "content", .arr message.2)]

/-- `IsConversationRole` -/
def isConversationRole (message : Json) : Bool :=
  jsonValueStr message (lit "role") [] ∈ [lit "user", lit "assistant", lit "tool"]

/-- Whether a message is the system's. -/
def isSystemRole (message : Json) : Bool :=
  jsonValueStr message (lit "role") [] ∈ [lit "system", lit "developer"]

/-- The result of a tool. -/
def toolResult (message : Json) : Json :=
  .ofFields
    [(lit "type", .str (lit "tool_result")),
      (lit "tool_use_id", .str (jsonValueStr message (lit "tool_call_id") [])),
      (lit "content", .str (jsonValueStr message (lit "content") []))]

section Encoding

variable (parse : Bytes → Option Json)

/-- One round of the loop over an assistant's calls. -/
def toolUse (call : Json) : Option Json :=
  (jsonObject call (lit "function")).map fun function =>
    let input := (parse (jsonValueStr function (lit "arguments") [])).filter Json.isObject
    .ofFields
      [(lit "type", .str (lit "tool_use")), (lit "id", .str (jsonValueStr call (lit "id") [])),
        (lit "name", .str (jsonValueStr function (lit "name") [])),
        (lit "input", input.getD (.obj []))]

/-- The blocks of an assistant's message: those it was, where they are kept, or
its content and its calls. -/
def assistantBlocks (message : Json) : List Json :=
  match (matchingReplay message (lit "anthropic_messages")).bind
      fun replay => jsonArray replay (lit "content") with
  | some (block :: blocks) => block :: blocks
  | _ =>
    anthropicContent (jsonValue message (lit "content") .null) ++
      ((jsonArray message (lit "tool_calls")).getD []).filterMap (toolUse parse)

/-- Who says a message of the conversation, and its blocks. -/
def conversationTurn (message : Json) : Option (AnthropicRole × List Json) :=
  let role := jsonValueStr message (lit "role") []
  if role = lit "tool" then some (.user, [toolResult message])
  else if role = lit "user" then
    some (.user, anthropicContent (jsonValue message (lit "content") .null))
  else if role = lit "assistant" then some (.assistant, assistantBlocks parse message)
  else none

/-- What `AnthropicMessages` has made so far; `leading` says that no message of
the conversation was among it. -/
structure AnthropicBody where
  messages : List (AnthropicRole × List Json) := []
  system : Bytes := []
  leading : Bool := true

/-- One round of the loop of `AnthropicMessages`. -/
def anthropicStep (body : AnthropicBody) (message : Json) : Option AnthropicBody :=
  if message.isObject = false then some body
  else if isSystemRole message then
    let text := contentText message (lit "\n\n")
    if text = [] then some body
    else if body.leading then
      some
        { body with
          system := body.system ++ (if body.system = [] then [] else lit "\n\n") ++ text }
    else
      some
        { body with
          messages := appendAnthropicMessage body.messages .user
            [textBlock (kHarnessNoteMarker ++ text)] }
  else
    let body := { body with leading := body.leading && !isConversationRole message }
    match conversationTurn parse message with
    | none => some body
    | some (role, blocks) =>
      (anthropicCacheBreakpoint message blocks).map fun blocks =>
        { body with messages := appendAnthropicMessage body.messages role blocks }

/-- `AnthropicMessages`, of an array. -/
def anthropicMessages (canonical : List Json) : Option AnthropicBody :=
  canonical.foldlM (anthropicStep parse) {}

/-! ### The body -/

/-- What the Anthropic wire takes of `WireRequest`. -/
structure AnthropicRequest where
  model : Bytes
  messages : Json
  tools : List Json := []
  reasoningEffort : Bytes := []
  maxOutputTokens : Int64 := 0
  adaptiveThinking : Bool := false
  reasoningSummary : Bool := false

/-- `RequestEnvelope` -/
def requestEnvelope (request : AnthropicRequest) : Json :=
  let body := Json.ofFields [(lit "model", .str request.model), (lit "stream", .bool true)]
  let body := if request.tools = [] then body else body.set (lit "tools") (.arr request.tools)
  let tokens := if 0 < request.maxOutputTokens then request.maxOutputTokens else 8192
  let body := (body.set (lit "cache_control") cacheControl).set (lit "max_tokens") (.int tokens)
  if request.reasoningEffort = [] ∨ request.reasoningEffort = lit "none" then body
  else
    let thinking := Json.ofFields [(lit "type", .str (lit "adaptive"))]
    let thinking :=
      if request.reasoningSummary then thinking.set (lit "display") (.str (lit "summarized"))
      else thinking
    let body := if request.adaptiveThinking then body.set (lit "thinking") thinking else body
    body.set (lit "output_config") (.ofFields [(lit "effort", .str request.reasoningEffort)])

/-- `AnthropicSystem` -/
def anthropicSystem (system : Bytes) : Json :=
  .arr [.ofFields [(lit "type", .str (lit "text")), (lit "text", .str system),
    (lit "cache_control", cacheControl)]]

/-- `EncodeWireRequest` for the Anthropic wire; messages that are no array are
sent as they are. -/
def encodeWireRequest (request : AnthropicRequest) : Option Json :=
  match request.messages with
  | .arr canonical =>
    (anthropicMessages parse canonical).map fun made =>
      let body := (requestEnvelope request).set (lit "messages")
        (.arr (made.messages.map anthropicMessage))
      if made.system = [] then body else body.set (lit "system") (anthropicSystem made.system)
  | messages => some ((requestEnvelope request).set (lit "messages") messages)

end Encoding

end UAgent
