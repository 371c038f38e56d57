/-
UAgent/Agent/Node.lean

The nodes a transcript is drawn from (include/agent/node.h and the part of
src/agent/transcript_tree.cc a live view is made with): a reply, its
thinking, a call, the files a call handed over and the work they are under.
-/
import UAgent.Core.Json
import UAgent.Core.Strings

namespace UAgent

open Bytes

/-- `Field`: a member of a node that is a text, else nothing. -/
def field (node : Json) (key : Bytes) : Bytes := (jsonStringRef node key).getD []

/-- `Blank`. -/
def blank (text : Bytes) : Bool :=
  text.all fun c => c = ch ' ' || c = ch '\t' || c = ch '\r' || c = ch '\n'

/-- `kPreviewChars`. -/
def kPreviewChars : Nat := 4096

/-- A parent as a node holds it. -/
def parentJson (parent : Bytes) : Json := if parent = [] then .null else .str parent

/-- `MakeNode`. -/
def makeNode (id parent kind : Bytes) (fields : Json := .obj []) : Json :=
  ((fields.set (lit "id") (.str id)).set (lit "parent") (parentJson parent)).set (lit "kind")
    (.str kind)

/-- `SetBody`. -/
def setBody (node : Json) (kind text : Bytes) (truncated : Bool) : Json :=
  if blank text then node
  else
    let body := Json.ofFields [(lit "kind", .str kind),
      (lit "text", .str (utf8Trunc text (kPreviewChars - 3)))]
    node.set (lit "body") (if truncated ∨ kPreviewChars < text.length
      then body.set (lit "truncated") (.bool true) else body)

/-- `WorkId`. -/
def workId (message : Bytes) : Bytes := if message = [] then [] else lit "w-" ++ message

/-- `ThinkingId`. -/
def thinkingId (message : Bytes) : Bytes := message ++ lit ":thinking"

/-- `ThinkingNode`. -/
def thinkingNode (message work : Bytes) (fields : Json) : Json :=
  makeNode (thinkingId message) work (lit "thinking")
    (fields.set (lit "headline") (.ofFields [(lit "verb", .str (lit "Thinking")),
      (lit "target", .str [])]))

/-- `CallHeadline`. -/
def callHeadline (view : Json) (state sent : Bytes) : Json :=
  match jsonArray view (lit "verb") with
  | some [.str present, .str past] =>
    .ofFields [(lit "verb", .str (if state = lit "running" then present else past)),
      (lit "target", .str (jsonValueStr view (lit "target") []))]
  | _ => .ofFields [(lit "verb", .str []), (lit "target", .str sent)]

/-- `Keep`, of one member. -/
def keep (record : Json) (node : Json) (key : Bytes) : Json :=
  match record.get? key with
  | some v => node.set key v
  | none => node

/-- `IsFile`. -/
def isFile (part : Json) : Bool := jsonValueStr part (lit "kind") [] = lit "file"

/-- The body of a call: its diff, or what it put out. -/
def callBody (record : Json) (state : Bytes) (node : Json) : Json :=
  let change := jsonValueStr record (lit "change") []
  if state = lit "ok" ∧ change ≠ [] then
    node.set (lit "body") (.ofFields [(lit "kind", .str (lit "diff")), (lit "text", .str change),
      (lit "truncated", .bool (record.contains (lit "change_path")))])
  else
    let node := setBody node (jsonValueStr record (lit "body_kind") (lit "text"))
      (jsonValueStr record (lit "output") []) (jsonValueBool record (lit "truncated"))
    match node.get? (lit "body") with
    | some body => node.set (lit "body") (keep record body (lit "tail"))
    | none => node

/-- What a call was given. -/
def callInput (view node : Json) : Json :=
  match jsonArray view (lit "input") with
  | some (part :: input) => node.set (lit "input") (.arr (part :: input))
  | _ => node

/-- The parts a call's node keeps: files are a node of their own. -/
def callParts (record node : Json) : Json :=
  match jsonArray record (lit "parts") with
  | some parts =>
    let kept := parts.filter fun part => !isFile part
    if kept = [] then node else node.set (lit "parts") (.arr kept)
  | none => node

/-- `CallNode`. -/
def callNode (record : Json) (work : Bytes) : Json :=
  let state := jsonValueStr record (lit "state") (lit "running")
  let activity := jsonValue record (lit "activity") (.obj [])
  let view := jsonValue record (lit "view") .null
  let sent := jsonValueStr activity (lit "label") (jsonValueStr record (lit "name") (lit "tool"))
  let node := makeNode (jsonValueStr record (lit "detail_id") []) work (lit "call")
    (.ofFields [(lit "state", .str state),
      (lit "headline", jsonValue record (lit "headline") (callHeadline view state sent))])
  [lit "result", lit "routine", lit "time"].foldl (keep record)
    (callParts record (callInput view (callBody record state node)))

/-- `FilesNode`; nothing when the call handed over none. -/
def filesNode (record : Json) (turn : Bytes) : Option Json :=
  match jsonArray record (lit "parts") with
  | none => none
  | some parts =>
    let files := parts.filter isFile
    if files = [] then none
    else some (makeNode (jsonValueStr record (lit "detail_id") [] ++ lit ":files") turn
      (lit "message") (.ofFields [(lit "role", .str (lit "assistant")), (lit "parts", .arr files)]))

/-- `WorkNode` of a message whose work has no facts yet. -/
def workNode (message : Bytes) : Json :=
  makeNode (workId message) message (lit "work")
    (.ofFields [(lit "state", .str (lit "running")),
      (lit "headline", .ofFields [(lit "verb", .str []), (lit "target", .str (lit "0 steps"))]),
      (lit "result", .ofFields [(lit "word", .str []), (lit "items", .int 0),
        (lit "edited", .int 0), (lit "errors", .int 0)])])

end UAgent
