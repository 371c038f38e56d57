/-
UAgent/Agent/ViewReducer.lean

The reducer of a session's view (src/agent/view_reducer.cc): the nodes a
client draws, changed by the session's events, bounded to the newest turns,
and the patches that tell a client of each change.

The events are the six that change the nodes; each carries its data.
-/
import UAgent.Agent.Node
import UAgent.Base.Placement

namespace UAgent

open Bytes

/-! ### Finding and placing nodes -/

/-- The id of a node. -/
def idOf (node : Json) : Bytes := field node (lit "id")

/-- The sequence of a node; zero for none. -/
def sequenceOf (node : Json) : Nat := jsonValueUint64 node (lit "sequence") 0

/-- `Find`: the nodes cut at the one with this id. -/
def findNode (nodes : List Json) (id : Bytes) : Option (List Json × Json × List Json) :=
  List.firstMatch (fun node => idOf node = id) nodes

/-- Whether a new node goes before `held`: a node under it, or a later one. -/
def goesBefore (node held : Json) : Bool :=
  field held (lit "parent") = idOf node ||
    (sequenceOf node ≠ 0 && sequenceOf node < sequenceOf held)

/-- The body a held node keeps: a shorter preview never replaces its text. -/
def keepsBody (found node : Json) : Option Json :=
  match jsonObject found (lit "body"), jsonObject node (lit "body") with
  | some held, some sent =>
    if jsonValueBool sent (lit "truncated") ∧ field held (lit "kind") = field sent (lit "kind") ∧
        (field sent (lit "text")).length < (field held (lit "text")).length then some held
    else none
  | _, _ => none

/-- What a held node becomes when another side of it arrives. -/
def mergeNode (found node : Json) : Json :=
  let merged := found.update node
  -- A saved node has finished streaming.
  let merged := if node.contains (lit "sequence") then merged.erase (lit "streaming") else merged
  match keepsBody found node with
  | some body => merged.set (lit "body") body
  | none => merged

/-- `Upsert`: the nodes, and whether the node is new or different. -/
def upsert (nodes : List Json) (node : Json) : List Json × Bool :=
  match findNode nodes (idOf node) with
  | none => (List.placeBefore (goesBefore node) node nodes, true)
  | some (pre, found, post) =>
    (pre ++ mergeNode found node :: post, !(mergeNode found node).eqv found)

/-! ### The view -/

def kViewNodes : Nat := 64
def kViewBytes : Nat := 384 * 1024

/-- The part of a session's view the reducer works on. -/
structure View where
  nodes : List Json
  /-- Older nodes exist. -/
  more : Bool := false
  /-- Where a page of them ends. -/
  before : Option Nat := none

/-- How many of the oldest nodes are past the bounds. -/
def overBounds : Nat → List Json → Nat
  | _, [] => 0
  | bytes, node :: rest =>
    if kViewNodes < rest.length + 1 ∨ kViewBytes < bytes then
      1 + overBounds (bytes - min bytes (jsonEstimatedBytes node)) rest
    else 0

/-- How many nodes `BoundView` drops: up to the next turn. -/
def boundDrop (nodes : List Json) : Nat :=
  let dropped := overBounds (jsonEstimatedBytes (.arr nodes)) nodes
  if dropped = 0 then 0
  else
    match (nodes.drop dropped).findIdx? fun node => field node (lit "kind") = lit "turn" with
    | some ahead => dropped + ahead
    | none => dropped

/-- `BoundView`. -/
def boundView (view : View) : View :=
  let dropped := boundDrop view.nodes
  let nodes := view.nodes.drop dropped
  { nodes
    more := if dropped = 0 then view.more else true
    before :=
      match nodes.find? fun node => node.contains (lit "sequence") with
      | some first => some (sequenceOf first)
      | none => view.before }

/-- The walk of `TurnOf`, `up` steps of it left. -/
def turnAbove (nodes : List Json) : Nat → Bytes → Bytes
  | 0, _ => []
  | up + 1, id =>
    if id = [] then []
    else
      match findNode nodes id with
      | none => []
      | some (_, found, _) =>
        if field found (lit "kind") = lit "turn" then id
        else turnAbove nodes up (field found (lit "parent"))

/-- `TurnOf`. -/
def turnOf (nodes : List Json) (id : Bytes) : Bytes := turnAbove nodes 5 id

/-! ### Patches -/

/-- A frame of kind `node`. -/
inductive NodePatch
  | node (node : Json)
  | append (id text : Bytes)
  | set (id : Bytes) (streaming : Bool)
deriving DecidableEq

/-- `Patches`: the nodes of `ids` the view still holds. -/
def patchesOf (nodes : List Json) (ids : List Bytes) : List NodePatch :=
  ids.filterMap fun id => (findNode nodes id).map fun cut => .node cut.2.1

/-! ### Deltas -/

/-- What an event makes of the nodes: the nodes, the ids of those that go out
whole, and the patches that have gone out already. -/
structure Change where
  nodes : List Json
  changed : List Bytes := []
  patches : List NodePatch := []

/-- The lambda `upsert`: a node, and the work it is under. -/
def Change.upsert (change : Change) (node : Json) : Change :=
  let placed := UAgent.upsert change.nodes node
  let changed := if placed.2 then change.changed ++ [idOf node] else change.changed
  let parent := field node (lit "parent")
  if (lit "w-").isPrefixOf parent ∧ findNode placed.1 parent = none then
    { change with
      nodes := (UAgent.upsert placed.1 (workNode (parent.drop 2))).1
      changed := changed ++ [parent] }
  else { change with nodes := placed.1, changed }

/-- A reply that has said nothing yet, or its thinking. -/
def newReply (answer : Bool) (data : Json) (responseId : Bytes) : Json :=
  if answer then
    makeNode responseId (jsonValueStr data (lit "turn_root") []) (lit "message")
      (.ofFields [(lit "role", .str (lit "assistant")), (lit "streaming", .bool true)])
  else
    thinkingNode responseId (jsonValueStr data (lit "work") [])
      (.ofFields [(lit "streaming", .bool true)])

/-- The body text is streamed into. -/
def streamBody (answer : Bool) (node : Json) : Json :=
  match jsonObject node (lit "body") with
  | some body =>
    if (jsonStringRef body (lit "text")).isSome then body
    else .ofFields [(lit "kind", .str (if answer then lit "markdown" else lit "text")),
      (lit "text", .str [])]
  | none => .ofFields [(lit "kind", .str (if answer then lit "markdown" else lit "text")),
      (lit "text", .str [])]

/-- Whether thinking starts over. -/
def resets (answer : Bool) (data : Json) : Bool := !answer && jsonValueBool data (lit "reset")

/-- What a delta adds to the text held: nothing if it is there already, or
does not follow on it. -/
def deltaAdds (data : Json) (text : Bytes) : Bytes :=
  let delta := (jsonStringRef data (lit "text")).getD []
  if data.contains (lit "offset") then
    let offset := jsonValueUint64 data (lit "offset") 0
    if text.length < offset then []
    else
      let overlap := min delta.length (text.length - offset)
      if (text.drop offset).take overlap ≠ delta.take overlap then [] else delta.drop overlap
  else delta

/-- What comes of a delta. -/
inductive DeltaOutcome
  /-- The nodes are as the event leaves them; nothing goes out whole. -/
  | early (nodes : List Json) (patches : List NodePatch)
  /-- The node is shown as a whole. -/
  | whole (change : Change)

/-- The nodes cut at the node a delta is for, which its first delta makes. -/
def deltaNode (answer : Bool) (nodes : List Json) (data : Json) (responseId : Bytes) :
    List Json × Json × List Json :=
  (findNode nodes (if answer then responseId else thinkingId responseId)).getD
    (nodes, newReply answer data responseId, [])

/-- `response.answer.delta` and `response.reasoning.delta`. -/
def applyDelta (answer : Bool) (nodes : List Json) (data : Json) : DeltaOutcome :=
  let responseId := jsonValueStr data (lit "response_id") []
  if responseId = [] then .early nodes []
  else
    let id := if answer then responseId else thinkingId responseId
    let (pre, found, post) := deltaNode answer nodes data responseId
    if !jsonValueBool found (lit "streaming") then .early (pre ++ found :: post) []
    else
      let body := streamBody answer found
      let text := field body (lit "text")
      let reset := resets answer data
      let added := deltaAdds data text
      let grown := if reset then (jsonStringRef data (lit "text")).getD [] else text ++ added
      let node := found.set (lit "body") (body.set (lit "text") (.str grown))
      if !reset ∧ added = [] then .early (pre ++ found.set (lit "body") body :: post) []
      -- Blank text is never shown.
      else if blank grown then .early (pre ++ node :: post) []
      else if !blank text ∧ !reset then .early (pre ++ node :: post) [.append id added]
      else .whole (Change.upsert ⟨pre ++ node :: post, [id], []⟩ node)

/-! ### The other events -/

/-- One reply is finished. -/
def finishReply (change : Change) (id : Bytes) : Change :=
  match findNode change.nodes id with
  | none => change
  | some (pre, found, post) =>
    if !jsonValueBool found (lit "streaming") then change
    -- A reply that showed nothing leaves nothing; no client holds it.
    else if ((jsonObject found (lit "body")).all fun body => blank (field body (lit "text"))) then
      { change with nodes := pre ++ post }
    else
      { change with
        nodes := pre ++ found.set (lit "streaming") (.bool false) :: post
        patches := change.patches ++ [.set id false] }

/-- `response.finished`. -/
def applyFinished (nodes : List Json) (data : Json) : Change :=
  let responseId := jsonValueStr data (lit "response_id") []
  finishReply (finishReply ⟨nodes, [], []⟩ responseId) (thinkingId responseId)

/-- `tool.call`. -/
def applyToolCall (nodes : List Json) (data : Json) : Change :=
  Change.upsert ⟨nodes, [], []⟩ (callNode data (jsonValueStr data (lit "work") []))

/-- The record a result is drawn from. -/
def resultRecord (data : Json) : Json :=
  [lit "headline", lit "activity", lit "parts"].foldl (keep data)
    (.ofFields [(lit "detail_id", .str (jsonValueStr data (lit "detail_id") [])),
      (lit "state", .str (jsonValueStr data (lit "state") (lit "ok"))),
      (lit "result", jsonValue data (lit "facts") (.obj [])),
      (lit "body_kind", .str (jsonValueStr data (lit "body_kind") (lit "text"))),
      (lit "output", .str (jsonValueStr data (lit "result") []))])

/-- The node of a result: the call's own event placed it. -/
def resultNode (data : Json) : Json := (callNode (resultRecord data) []).erase (lit "parent")

/-- `tool.result`. -/
def applyToolResult (nodes : List Json) (data : Json) : Change :=
  let change := Change.upsert ⟨nodes, [], []⟩ (resultNode data)
  match filesNode (resultRecord data)
      (turnOf change.nodes (field (resultRecord data) (lit "detail_id"))) with
  | some files => change.upsert files
  | none => change

/-- `message.changed`.  Work is made by the first node under it: alone, it
only changes. -/
def applyMessageChanged (nodes : List Json) (data : Json) : Change :=
  match jsonObject data (lit "node") with
  | none => ⟨nodes, [], []⟩
  | some node =>
    if field node (lit "kind") ≠ lit "work" ∨ findNode nodes (idOf node) ≠ none then
      Change.upsert ⟨nodes, [], []⟩ node
    else ⟨nodes, [], []⟩

/-! ### The reducer -/

/-- An event that changes the nodes. -/
inductive ViewEvent
  | answerDelta (data : Json)
  | reasoningDelta (data : Json)
  | responseFinished (data : Json)
  | toolCall (data : Json)
  | toolResult (data : Json)
  | messageChanged (data : Json)

/-- The event is applied: the view is bounded, and the whole nodes go out. -/
def View.settle (view : View) (change : Change) : View × List NodePatch :=
  let view := boundView { view with nodes := change.nodes }
  (view, change.patches ++ patchesOf view.nodes change.changed)

/-- A delta is applied. -/
def View.applyDelta (view : View) (answer : Bool) (data : Json) : View × List NodePatch :=
  match UAgent.applyDelta answer view.nodes data with
  | .early nodes patches => ({ view with nodes }, patches)
  | .whole change => view.settle change

/-- `ApplySessionEvent`: the view and its patches. -/
def applySessionEvent (view : View) : ViewEvent → View × List NodePatch
  | .answerDelta data => view.applyDelta true data
  | .reasoningDelta data => view.applyDelta false data
  | .responseFinished data => view.settle (applyFinished view.nodes data)
  | .toolCall data =>
    if jsonValueStr data (lit "detail_id") [] = [] then (view, [])
    else view.settle (applyToolCall view.nodes data)
  | .toolResult data =>
    if jsonValueStr data (lit "detail_id") [] = [] then (view, [])
    else view.settle (applyToolResult view.nodes data)
  | .messageChanged data => view.settle (applyMessageChanged view.nodes data)

end UAgent
