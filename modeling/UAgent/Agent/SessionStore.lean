/-
UAgent/Agent/SessionStore.lean

A session as it is saved (src/agent/session_store.cc): one line of header,
written from the metadata, and one line of state, each a JSON object.  Some
members are written only when they are not at their default; what a listing
shows of a session (its cost, its tokens, its to-do list) rides in the header
beside the metadata.

This module is the writing side.
-/
import UAgent.Agent.Conversation

namespace UAgent

open Bytes

/-! ### The record -/

/-- `SessionMetadata`. -/
structure SessionMetadata where
  cwd : Bytes
  model : Bytes
  sessionId : Bytes
  turns : Int := 0
  title : Bytes
  customTitle : Bool := false
  parentSessionId : Bytes := []
  forkedAtTurn : Int := 0
  forkedAtTime : Bytes := []
  agent : Json := .obj []
  /-- False for a conversation run with memory off. -/
  memory : Bool := true
deriving DecidableEq

/-- `SessionState`. -/
structure SessionState where
  messages : Json := .arr []
  messageKinds : List MessageKind := []
  archive : Json := .arr []
  archiveDroppedSegments : Int := 0
  contextTokens : Int := 0
  contextWindow : Int := 0
  usage : Usage := {}
  routeUsage : RouteUsage := []
  lastSentPrompt : Bytes := []
  display : Json := .obj []
  deliveredMail : Json := .arr []
deriving DecidableEq

/-- `SessionRecord`. -/
structure SessionRecord where
  metadata : SessionMetadata
  state : SessionState
deriving DecidableEq

def kSessionFormat : Int := 3
def kSessionHeaderBytes : Nat := 16 * 1024
def kSessionReadBytes : Nat := 64 * 1024 * 1024

/-! ### Lists of kinds and items -/

/-- `MessageKindsJson`. -/
def messageKindsJson (kinds : List MessageKind) : Json :=
  .arr (kinds.map fun kind => .str (messageKindName kind))

/-- `TodoProgress`; `null` for an empty list. -/
def todoProgress (items : Json) : Json :=
  match items with
  | .arr (item :: rest) =>
    let list := item :: rest
    let done := list.countP fun i => jsonValueStr i (lit "status") [] = lit "done"
    -- The current item is the first not done that has a text.
    let current := list.foldl (fun current i =>
      if jsonValueStr i (lit "status") [] ≠ lit "done" ∧ current = [] then
        jsonValueStr i (lit "text") []
      else current) []
    .ofFields [(lit "done", .int (Int64.ofNat done)),
      (lit "total", .uint (UInt64.ofNat list.length)), (lit "current", .str current)]
  | _ => .null

/-! ### Writing -/

/-- `ValidState`, of a state with no live conversation beside it. -/
def validState (state : SessionState) : Bool :=
  state.messages.isArray && state.messages.items ≠ [] &&
    state.messageKinds.length = state.messages.items.length && state.archive.isArray &&
    state.display.isObject && state.deliveredMail.isArray

/-- `HeaderJson`. -/
def headerJson (metadata : SessionMetadata) : Json :=
  let header := Json.ofFields [(lit "format", .int (Int64.ofInt kSessionFormat)),
    (lit "cwd", .str metadata.cwd), (lit "model", .str metadata.model),
    (lit "session_id", .str metadata.sessionId),
    (lit "turns", .int (Int64.ofInt metadata.turns)), (lit "title", .str metadata.title),
    (lit "custom_title", .bool metadata.customTitle),
    (lit "parent_session_id", .str metadata.parentSessionId),
    (lit "forked_at_turn", .int (Int64.ofInt metadata.forkedAtTurn)),
    (lit "forked_at_time", .str metadata.forkedAtTime)]
  let header := if metadata.agent.isEmpty then header
    else header.set (lit "agent") metadata.agent
  if metadata.memory then header else header.set (lit "memory") (.bool false)

/-- The to-do list among the display facts. -/
def todoItems (display : Json) : Json :=
  jsonValue (jsonValue (jsonValue display (lit "facts") (.obj [])) (lit "todo") (.obj []))
    (lit "items") (.arr [])

/-- The header `Save` writes: the metadata, and what a listing shows. -/
def savedHeader (record : SessionRecord) : Json :=
  let display := record.state.display
  let usage := record.state.usage
  let incoming := jsonValueUint64 (jsonValue display (lit "statistics") (.obj []))
    (lit "incoming") 0
  let header := (((headerJson record.metadata).set (lit "incoming")
      (.uint (UInt64.ofNat incoming))).set (lit "cost") (.float usage.cost)).set (lit "tokens")
      (.int (Int64.ofInt (saturatingNonnegativeAdd usage.promptTokens usage.generatedTokens)))
  let todo := todoProgress (todoItems display)
  if todo = .null then header else header.set (lit "todo") todo

section Text

variable [DoubleText] [DoubleSum]

/-- The part of the state `StateText` writes as one object. -/
def stateJson (state : SessionState) : Json :=
  .ofFields [(lit "message_kinds", messageKindsJson state.messageKinds),
    (lit "archive_dropped_segments", .int (Int64.ofInt state.archiveDroppedSegments)),
    (lit "context_tokens", .int (Int64.ofInt state.contextTokens)),
    (lit "context_window", .int (Int64.ofInt state.contextWindow)),
    (lit "usage", usageJson state.usage), (lit "route_usage", routeUsageJson state.routeUsage),
    (lit "last_sent_prompt", .str state.lastSentPrompt),
    (lit "delivered_mail", state.deliveredMail)]

/-- `StateText`: the display, the messages and the archive follow the rest. -/
def stateText (state : SessionState) : Bytes :=
  (stateJson state).dump.dropLast ++
    lit "," ++ (Json.str (lit "display")).dump ++ lit ":" ++ state.display.dump ++
    lit "," ++ (Json.str (lit "messages")).dump ++ lit ":" ++ state.messages.dump ++
    lit ",\"archive\":" ++ state.archive.dump ++ lit "\x7d"

/-- `Save`: the text of the file, or why there is none. -/
def sessionText (record : SessionRecord) : Except Bytes Bytes :=
  if !validState record.state then .error (lit "refusing to save incomplete session state")
  else
    let headerText := (savedHeader record).dump
    let body := stateText record.state
    if kSessionHeaderBytes ≤ headerText.length ∨
        kSessionReadBytes - min kSessionReadBytes (headerText.length + 1) < body.length then
      .error (lit "session exceeds readable storage limits")
    else .ok (headerText ++ [0x0a] ++ body)

end Text

end UAgent
