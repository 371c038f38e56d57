/-
UAgent/Agent/Conversation.lean

The conversation of a session (src/agent/conversation.cc): its messages with
their kinds and display ids, the display facts with their own byte
accounting, the archive of compacted segments and the counters.

The source keeps messages, kinds and ids in three arrays of one length; here
they are one list of rows, so that the arrays cannot disagree.  `restore`
takes them apart again, since a saved session may.
-/
import UAgent.Core.Strings
import UAgent.Core.Usage

namespace UAgent

open Bytes

/-! ### Message kinds -/

/-- `MessageKind`. -/
inductive MessageKind
  | system
  | user
  | assistant
  | toolResult
  | attachment
  | runtimeContext
  | internal
deriving DecidableEq

/-- `MessageKindName`. -/
def messageKindName : MessageKind → Bytes
  | .system => lit "system"
  | .user => lit "user"
  | .assistant => lit "assistant"
  | .toolResult => lit "tool_result"
  | .attachment => lit "attachment"
  | .runtimeContext => lit "runtime_context"
  | .internal => lit "internal"

/-- The role a kind is sent under; a tool result keeps its own. -/
def MessageKind.role : MessageKind → Option Bytes
  | .user | .attachment => some (lit "user")
  | .assistant => some (lit "assistant")
  | .toolResult => none
  | .system => some (lit "system")
  -- Only the baseline at index zero may be `system`.
  | .runtimeContext | .internal => some (lit "user")

/-- `NormalizeRole`. -/
def normalizeRole (message : Json) (kind : MessageKind) : Json :=
  match kind.role with
  | some role => message.set (lit "role") (.str role)
  | none => message

/-! ### The conversation -/

/-- One message with what the source keeps beside it. -/
structure ConversationRow where
  message : Json
  kind : MessageKind
  id : UInt64
deriving DecidableEq

/-- `Conversation`. -/
structure Conversation where
  rows : List ConversationRow := []
  displayFacts : List (Bytes × Json) := []
  factBytes : List (Bytes × Nat) := []
  announcedDeliveries : Json := .obj []
  statistics : Json := .ofFields [(lit "complete", .bool true)]
  nextDisplayId : UInt64 := 1
  displayBytes : Nat := 0
  archive : List Json := []
  archiveTexts : List Bytes := []
  archiveBytes : Int := 0
  droppedSegments : Int := 0

def kMinimumPrunableResultChars : Nat := 1024
def kProtectedUserTurns : Nat := 2
def kCompactedToolOutput : Bytes := lit "[old tool output compacted:"
def kStatusLabelBytes : Nat := 160
def kAttachedOnRequest : Bytes := lit "[attached on request]"
def kFactBytes : Nat := 64 * 1024
def kFactCount : Nat := 4096
def kDisplayBytes : Nat := 4 * 1024 * 1024
def kTinyFactBytes : Nat := 512
def kAnnouncedIds : Nat := 1024

/-- `FactBytes`: what a display fact counts against the metadata budget. -/
def factSize (key : Bytes) (value : Json) : Nat :=
  saturatingAdd (jsonEstimatedBytes value) key.length

/-- `LastDisplayId` for the id `id`. -/
def displayName (id : UInt64) : Bytes := lit "m-" ++ Json.decimal id.toNat

/-- `IsUserMessage`. -/
def isUserMessage (message : Json) (kind : MessageKind) : Bool :=
  match kind with
  | .user => true
  | .attachment =>
    match jsonArray message (lit "content") with
    | some (part :: _) => !kAttachedOnRequest.isPrefixOf (jsonValueStr part (lit "text") [])
    | _ => true
  | _ => false

namespace Conversation

/-- `Messages`. -/
def messages (c : Conversation) : List Json := c.rows.map (·.message)

/-- `Kinds`. -/
def kinds (c : Conversation) : List MessageKind := c.rows.map (·.kind)

/-- `DisplayIds`. -/
def displayIds (c : Conversation) : List UInt64 := c.rows.map (·.id)

/-- `ArchiveText`. -/
def archiveText (c : Conversation) : Bytes :=
  ch '[' :: (joinWith [ch ','] c.archiveTexts ++ [ch ']'])

/-- `DisplayMetadata`. -/
def displayMetadata (c : Conversation) : Json :=
  .ofFields [(lit "ids", .arr (c.displayIds.map .uint)), (lit "facts", .obj c.displayFacts),
    (lit "announced", c.announcedDeliveries), (lit "statistics", c.statistics),
    (lit "next", .uint c.nextDisplayId)]

/-! ### Display facts -/

/-- `evictable`: the fact just written never goes, nor does what the
conversation is rather than shows. -/
def evictable (key name : Bytes) : Bool :=
  name ≠ key && name ≠ lit "session-settings" && name ≠ lit "todo" &&
    name ≠ lit "fork-origin" && name ≠ lit "side-origin"

/-- `stored_bytes`. -/
def storedBytes (c : Conversation) (name : Bytes) (value : Json) : Nat :=
  (Assoc.lookup name c.factBytes).getD (factSize name value)

/-- The largest evictable fact, the first of several. -/
def largestFact (c : Conversation) (key : Bytes) : Option (Bytes × Nat) :=
  c.displayFacts.foldl (fun victim e =>
    if !evictable key e.1 then victim
    else
      let candidate := c.storedBytes e.1 e.2
      match victim with
      | none => some (e.1, candidate)
      | some (name, bytes) =>
        if bytes < candidate ∨ (candidate = bytes ∧ e.1 < name) then some (e.1, candidate)
        else some (name, bytes)) none

/-- The fact that goes next: the largest, or the first when only tiny ones
are left and the bytes are no trouble. -/
def victim (c : Conversation) (key : Bytes) : Option (Bytes × Nat) :=
  match c.largestFact key with
  | none => none
  | some (name, bytes) =>
    if bytes ≤ kTinyFactBytes ∧ c.displayBytes ≤ kDisplayBytes then
      (c.displayFacts.find? fun e => evictable key e.1).map fun e => (e.1, c.storedBytes e.1 e.2)
    else some (name, bytes)

/-- A fact is erased. -/
def dropFact (c : Conversation) (name : Bytes) (bytes : Nat) : Conversation :=
  { c with
    displayBytes := c.displayBytes - min c.displayBytes bytes
    factBytes := Assoc.erase name c.factBytes
    displayFacts := Assoc.erase name c.displayFacts }

/-- The eviction loop of `RecordDisplay`.  Every round erases a fact, so there
are at most as many rounds as facts. -/
def evict (key : Bytes) : Nat → Conversation → Conversation
  | 0, c => c
  | rounds + 1, c =>
    if kFactCount < c.displayFacts.length ∨ kDisplayBytes < c.displayBytes then
      match c.victim key with
      | some (name, bytes) => evict key rounds (c.dropFact name bytes)
      | none => c
    else c

/-- What `RecordDisplay` stores under a key: the facts, over those there. -/
def mergedFacts (c : Conversation) (key : Bytes) (facts : Json) : Json :=
  match Assoc.lookup key c.displayFacts with
  | some existing => if existing.isObject then existing.update facts else facts
  | none => facts

/-- The bytes the fact under `key` is given back for. -/
def replacedBytes (c : Conversation) (key : Bytes) : Nat :=
  match Assoc.lookup key c.displayFacts with
  | some existing => factSize key existing
  | none => 0

/-- The fact is written. -/
def putFact (c : Conversation) (key : Bytes) (facts : Json) : Conversation :=
  let freed := c.displayBytes - min c.displayBytes (c.replacedBytes key)
  { c with
    displayBytes := saturatingAdd freed (factSize key facts)
    displayFacts := Assoc.insert key facts c.displayFacts
    factBytes := Assoc.insert key (factSize key facts) c.factBytes }

/-- `RecordDisplay`. -/
def recordDisplay (c : Conversation) (key : Bytes) (facts : Json) : Conversation :=
  if key = [] ∨ !facts.isObject then c
  else
    let facts := c.mergedFacts key facts
    if kFactBytes < jsonEstimatedBytes facts then c
    else
      let written := c.putFact key facts
      evict key written.displayFacts.length written

/-- `RecordAnnouncedDeliveries`. -/
def recordAnnouncedDeliveries (c : Conversation) (id : Bytes) (values : Json) : Conversation :=
  if id = [] ∨ !values.isArray then c
  else
    match c.announcedDeliveries.set id values with
    | .obj fields =>
      -- The loop erases the first entry until the bound holds.
      { c with announcedDeliveries := .obj (fields.drop (fields.length - kAnnouncedIds)) }
    | announced => { c with announcedDeliveries := announced }

/-! ### Messages -/

/-- Rows for messages numbered from `next` on. -/
def numberRows (next : UInt64) : List (Json × MessageKind) → List ConversationRow
  | [] => []
  | (message, kind) :: baseline =>
    ⟨normalizeRole message kind, kind, next⟩ :: numberRows (next + 1) baseline

/-- `ResetHistory`. -/
def resetHistory (c : Conversation) (baseline : List (Json × MessageKind)) : Conversation :=
  { c with
    rows := numberRows c.nextDisplayId baseline
    nextDisplayId := c.nextDisplayId + UInt64.ofNat baseline.length }

/-- `Reset`. -/
def reset (baseline : List (Json × MessageKind)) : Conversation := resetHistory {} baseline

/-- Kinds whose messages are shown with the time they came. -/
def timed : MessageKind → Bool
  | .user | .assistant | .toolResult | .attachment => true
  | _ => false

/-- A row goes in at the end; the id counter advances past its id. -/
def appendRow (c : Conversation) (row : ConversationRow) : Conversation :=
  { c with
    rows := c.rows ++ [row]
    nextDisplayId := if c.nextDisplayId ≤ row.id then row.id + 1 else c.nextDisplayId }

/-- `PushWithDisplayId`; `stamp` is `UtcStamp()`. -/
def pushWithDisplayId (c : Conversation) (message : Json) (kind : MessageKind) (id : UInt64)
    (stamp : Bytes) : Conversation :=
  if timed kind then
    (c.appendRow ⟨normalizeRole message kind, kind, id⟩).recordDisplay (displayName id)
      (.ofFields [(lit "time", .str stamp)])
  else c.appendRow ⟨normalizeRole message kind, kind, id⟩

/-- `next_display_id_++`. -/
def mint (c : Conversation) : Conversation := { c with nextDisplayId := c.nextDisplayId + 1 }

/-- `Push`. -/
def push (c : Conversation) (message : Json) (kind : MessageKind) (stamp : Bytes) :
    Conversation :=
  c.mint.pushWithDisplayId message kind c.nextDisplayId stamp

/-- `Set`. -/
def set (c : Conversation) (index : Nat) (message : Json) (kind : MessageKind) : Conversation :=
  match c.rows[index]? with
  | none => c
  | some row =>
    let message := normalizeRole message kind
    if row.message.eqv message ∧ row.kind = kind then c
    else { c with rows := c.rows.set index { row with message := message, kind := kind } }

/-- `RefreshBaseline`. -/
def refreshBaseline (c : Conversation) (system : Json) : Conversation :=
  if c.rows = [] then { c.mint with rows := [⟨system, .system, c.nextDisplayId⟩] }
  else c.set 0 system .system

/-- `Erase`. -/
def erase (c : Conversation) (first last : Nat) : Conversation :=
  let last := min last c.rows.length
  let first := min first c.rows.length
  if last ≤ first then c else { c with rows := c.rows.take first ++ c.rows.drop last }

/-- The loop of `TruncateBeforeUserTurn`: where the user message numbered
`turn` stands, `seen` of them being passed. -/
def userTurnFrom (turn seen : Int) : List ConversationRow → Option Nat
  | [] => none
  | row :: rows =>
    if isUserMessage row.message row.kind then
      if seen + 1 = turn then some 0 else (userTurnFrom turn (seen + 1) rows).map (· + 1)
    else (userTurnFrom turn seen rows).map (· + 1)

/-- `TruncateBeforeUserTurn`, with whether the turn was found. -/
def truncateBeforeUserTurn (c : Conversation) (turn : Int) : Conversation × Bool :=
  if turn ≤ 0 then (c, false)
  else
    match userTurnFrom turn 0 c.rows with
    | some index => (c.erase index c.rows.length, true)
    | none => (c, false)

/-! ### Counters and entries -/

section Statistics

variable [DoubleSum]

/-- `AddStatistics`. -/
def addStatistics (c : Conversation) (delta : Json) : Conversation :=
  { c with statistics := mergeNumericStatistics c.statistics delta }

/-- An entry that says what a turn came to, rather than a message that came
in. -/
def isSummary (facts : Json) : Bool :=
  facts.get? (lit "kind") = some (.str (lit "turn_summary")) ||
    facts.get? (lit "kind") = some (.str (lit "compaction"))

/-- The members every entry is given. -/
def entryFacts (id : UInt64) (facts : Json) (stamp : Bytes) : Json :=
  let facts := (facts.set (lit "sequence") (.uint id)).set (lit "id") (.str (displayName id))
  let facts := if facts.contains (lit "kind") then facts
    else facts.set (lit "kind") (.str (lit "activity"))
  facts.set (lit "time") (.str stamp)

/-- `RecordEntry`, with the entry as it was recorded; `stamp` is `UtcStamp()`. -/
def recordEntry (c : Conversation) (facts : Json) (stamp : Bytes) : Conversation × Json :=
  let id := c.nextDisplayId
  let entry := entryFacts id facts stamp
  if isSummary entry then (c.mint.recordDisplay (displayName id) entry, entry)
  else
    let counted := c.mint.addStatistics (.ofFields [(lit "incoming", .int 1)])
    let entry := entry.set (lit "incoming") ((counted.statistics.get? (lit "incoming")).getD .null)
    (counted.recordDisplay (displayName id) entry, entry)

end Statistics

/-! ### Pruning -/

/-- `FindToolCallFunction`. -/
def findToolCallFunction (message : Json) (id : Bytes) : Option Json :=
  if jsonValueStr message (lit "role") [] ≠ lit "assistant" then none
  else
    match jsonArray message (lit "tool_calls") with
    | none => none
    | some calls =>
      calls.findSome? fun call =>
        if jsonValueStr call (lit "id") [] = id then jsonObject call (lit "function") else none

/-- `ToolCallName`. -/
def toolCallName (message : Json) (id : Bytes) : Bytes :=
  match findToolCallFunction message id with
  | some function => jsonValueStr function (lit "name") []
  | none => []

/-- The search of `ToolResultName` through the rows before the result, the
last first. -/
def callNameBefore (id : Bytes) : List ConversationRow → Bytes
  | [] => []
  | row :: rows =>
    if toolCallName row.message id ≠ [] then toolCallName row.message id
    else if row.kind = .user then []
    else callNameBefore id rows

/-- `ToolResultName`. -/
def toolResultName (rows : List ConversationRow) (index : Nat) : Bytes :=
  match rows[index]? with
  | none => []
  | some row =>
    let id := jsonValueStr row.message (lit "tool_call_id") []
    if id = [] then [] else callNameBefore id (rows.take index).reverse

/-- `CompactedResult`. -/
def compactedResult (content : Bytes) : Bytes :=
  let preview := utf8Trunc (firstLine content) kStatusLabelBytes
  kCompactedToolOutput ++ lit " " ++ Json.decimal content.length ++
    lit " chars; full result retained in session trace" ++
    if preview = [] then lit "]" else lit "; preview: " ++ preview ++ lit "]"

/-- What the backward scan of `PruneOldToolResults` has found. -/
structure PruneScan where
  userTurns : Nat := 0
  protectedChars : Nat := 0
  reclaimable : Nat := 0
  candidates : List (Nat × Bytes) := []

/-- One row of the backward scan. -/
def pruneStep (rows : List ConversationRow) (protectChars : Nat) (retained : List Bytes)
    (scan : PruneScan) (index : Nat) : PruneScan :=
  match rows[index]? with
  | none => scan
  | some row =>
    if row.kind = .user then { scan with userTurns := scan.userTurns + 1 }
    else if scan.userTurns < kProtectedUserTurns ∨ row.kind ≠ .toolResult then scan
    else
      match jsonStringRef row.message (lit "content") with
      | none => scan
      | some content =>
        if content.length < kMinimumPrunableResultChars ∨
            kCompactedToolOutput.isPrefixOf content ∨ toolResultName rows index ∈ retained then
          scan
        else
          let scan :=
            { scan with protectedChars := saturatingAdd scan.protectedChars content.length }
          let replacement := compactedResult content
          if scan.protectedChars ≤ protectChars ∨ content.length ≤ replacement.length then scan
          else
            { scan with
              reclaimable :=
                saturatingAdd scan.reclaimable (content.length - replacement.length)
              candidates := scan.candidates ++ [(index, replacement)] }

/-- `ToolTracePruneResult`. -/
structure ToolTracePruneResult where
  results : Nat := 0
  reclaimedChars : Nat := 0

/-- `messages_[index]["content"] = content`. -/
def setContent (content : Json) (row : ConversationRow) : ConversationRow :=
  { row with message := row.message.set (lit "content") content }

/-- One candidate is replaced. -/
def replaceResult (state : List ConversationRow × ToolTracePruneResult)
    (candidate : Nat × Bytes) : List ConversationRow × ToolTracePruneResult :=
  let old := (state.1[candidate.1]?.bind fun row =>
    jsonStringRef row.message (lit "content")).getD []
  (state.1.modify candidate.1 (setContent (.str candidate.2)),
    { results := state.2.results + 1
      reclaimedChars := state.2.reclaimedChars + (old.length - candidate.2.length) })

/-- `PruneOldToolResults`. -/
def pruneOldToolResults (c : Conversation) (protectChars minimumReclaimChars : Nat)
    (retainedTools : List Bytes) : Conversation × ToolTracePruneResult :=
  if minimumReclaimChars = 0 then (c, {})
  else
    let scan := (List.range c.rows.length).reverse.foldl
      (pruneStep c.rows protectChars retainedTools) {}
    if scan.reclaimable < minimumReclaimChars then (c, {})
    else
      let pruned := scan.candidates.foldl replaceResult (c.rows, {})
      ({ c with rows := pruned.1 }, pruned.2)

/-- A part that refers to an attached file. -/
def isAttachmentPart (part : Json) : Bool := jsonValueStr part (lit "type") [] = lit "attachment"

/-- A part that refers to a file not yet processed on `route`. -/
def unrouted (route : Bytes) (part : Json) : Bool :=
  isAttachmentPart part && jsonValueStr part (lit "processed_route") [] ≠ route

/-- The kind of a message whose attachments are processed: it only stops being
an attachment. -/
def prunedKind (first index : Nat) (kind : MessageKind) : MessageKind :=
  if kind = .attachment then if index = first then .user else .internal else kind

/-- One message of `PruneAttachments`, with what it adds to the count. -/
def pruneRow (first : Nat) (route : Bytes) (index : Nat) (row : ConversationRow) :
    ConversationRow × Nat :=
  match jsonArray row.message (lit "content") with
  | none => (row, 0)
  | some parts =>
    if parts.any isAttachmentPart then
      let routed := parts.map fun part =>
        if unrouted route part then part.set (lit "processed_route") (.str route) else part
      ({ setContent (.arr routed) row with kind := prunedKind first index row.kind },
        parts.countP (unrouted route))
    else if index < first then (row, 0)
    else
      let words := contentText row.message [] ++ lit "\n[attachments omitted after processing]"
      ({ setContent (.str words) row with kind := prunedKind first index row.kind },
        parts.length - 1)

/-- `PruneAttachments`, with the number of attachments. -/
def pruneAttachments (c : Conversation) (first : Nat) (route : Bytes) : Conversation × Nat :=
  let pruned := c.rows.mapIdx (pruneRow first route)
  ({ c with rows := pruned.map Prod.fst }, (pruned.map Prod.snd).sum)

/-! ### The archive -/

section Archive

variable [DoubleText]

/-- The loop of `AddArchiveSegment` over the archived texts: how many expire
to make room for `bytes` more, and the bytes of the archive with the new
segment. -/
def expire (cap segmentBytes : Int) (total bytes : Int) : List Bytes → Nat × Int
  | [] => (0, total + bytes)
  | text :: texts =>
    if cap < total + bytes then
      let comma : Int := if texts = [] then 0 else 1
      let rest := expire cap segmentBytes (total - (text.length + comma)) (segmentBytes + comma)
        texts
      (rest.1 + 1, rest.2)
    else (0, total + bytes)

/-- How many segments expire to make room for `text`, and the archive's bytes
with it. -/
def expired (c : Conversation) (text : Bytes) (archiveCap : Int) : Nat × Int :=
  expire archiveCap text.length c.archiveBytes (text.length + if c.archive = [] then 0 else 1)
    c.archiveTexts

/-- A segment goes in, the oldest ones making room. -/
def appendSegment (c : Conversation) (segment : Json) (archiveCap : Int) : Conversation :=
  let text := segment.dump
  let expired := c.expired text archiveCap
  { c with
    archive := c.archive.drop expired.1 ++ [segment]
    archiveTexts := c.archiveTexts.drop expired.1 ++ [text]
    archiveBytes := expired.2
    droppedSegments := c.droppedSegments + expired.1 }

/-- `AddArchiveSegment`, with whether the segment was taken. -/
def addArchiveSegment (c : Conversation) (segment : Json) (archiveCap : Int) :
    Conversation × Bool :=
  if archiveCap ≤ 0 ∨ archiveCap < segment.dump.length then
    ({ c with droppedSegments := c.droppedSegments + 1 }, false)
  else (c.appendSegment segment archiveCap, true)

/-- `ArchiveRange`, with whether a segment was taken. -/
def archiveRange (c : Conversation) (reason : Bytes) (first last : Nat) (turn : Int64)
    (archiveCap : Int) : Conversation × Bool :=
  let saved := (c.rows.take last).drop first
  if saved = [] then (c, false)
  else
    c.addArchiveSegment (.ofFields [(lit "turn", .int turn), (lit "reason", .str reason),
      (lit "messages", .arr (saved.map (·.message))),
      (lit "message_kinds", .arr (saved.map fun row => .str (messageKindName row.kind))),
      (lit "display_ids", .arr (saved.map fun row => .uint row.id))]) archiveCap

/-- `ArchiveTurn`. -/
def archiveTurn (c : Conversation) (turnStart : Nat) (turn : Int64) (archiveCap : Int) :
    Conversation :=
  if c.rows.length ≤ turnStart + 2 then c
  else (c.archiveRange (lit "tool_trace") (turnStart + 1) (c.rows.length - 1) turn archiveCap).1

/-- `ArchiveAll`. -/
def archiveAll (c : Conversation) (reason : Bytes) (baselineSize : Nat) (turn : Int64)
    (archiveCap : Int) : Conversation :=
  (c.archiveRange reason baselineSize c.rows.length turn archiveCap).1

end Archive

/-! ### Restoring -/

/-- The loop of `Restore` over the saved ids: each an unsigned number, not
zero, below `next` and not seen before. -/
def restoreIds (next : UInt64) (seen : List UInt64) : List Json → Option (List UInt64)
  | [] => some seen
  | .uint id :: ids =>
    if id = 0 ∨ next ≤ id ∨ id ∈ seen then none else restoreIds next (seen ++ [id]) ids
  | _ :: _ => none

/-- What `Restore` reads from the display metadata of `count` messages: the
ids, the facts and the next id. -/
def restoreDisplay (count : Nat) (display : Json) :
    Option (List UInt64 × List (Bytes × Json) × UInt64) :=
  if display.isEmpty then
    some ((List.range count).map fun index => UInt64.ofNat (index + 1), [],
      UInt64.ofNat (count + 1))
  else
    match jsonArray display (lit "ids"), jsonObject display (lit "facts") with
    | some ids, some (.obj facts) =>
      let next := UInt64.ofNat (jsonValueUint64 display (lit "next") 0)
      if ids.length ≠ count ∨ kDisplayBytes < jsonEstimatedBytes (.obj facts) ∨ next = 0 ∨
          0xffffffffffffffff - 1000000 ≤ next then
        none
      else (restoreIds next [] ids).map fun ids => (ids, facts, next)
    | _, _ => none

/-- The counters `Restore` adopts: a damaged or oversized set is dropped. -/
def restoreStatistics (display : Json) : Json :=
  let incomplete := Json.ofFields [(lit "complete", .bool false)]
  let statistics := jsonValue display (lit "statistics") incomplete
  if !statistics.isObject ∨ 4096 < jsonEstimatedBytes statistics then incomplete else statistics

/-- The announced deliveries `Restore` adopts. -/
def restoreAnnounced (display : Json) : Json :=
  match jsonValue display (lit "announced") (.obj []) with
  | .obj announced =>
    if announced.length ≤ 1024 ∧ jsonEstimatedBytes (.obj announced) ≤ 64 * 1024 then
      .obj announced
    else .obj []
  | _ => .obj []

/-- The rows of restored messages, their roles normalized. -/
def restoredRows (messages : List Json) (kinds : List MessageKind) (ids : List UInt64) :
    List ConversationRow :=
  ((messages.zip kinds).zip ids).map fun ((message, kind), id) =>
    ⟨normalizeRole message kind, kind, id⟩

variable [DoubleText]

/-- `Restore`, into a fresh conversation. -/
def restore (messages : Json) (kinds : List MessageKind) (archive : Json) (droppedSegments : Int)
    (display : Json) : Option Conversation :=
  match messages, archive with
  | .arr messages, .arr archive =>
    if messages = [] ∨ messages.length ≠ kinds.length then none
    else
      (restoreDisplay messages.length display).map fun (ids, facts, next) =>
        let texts := archive.map Json.dump
        { rows := restoredRows messages kinds ids
          displayFacts := facts
          factBytes := facts.map fun e => (e.1, factSize e.1 e.2)
          announcedDeliveries := restoreAnnounced display
          statistics := restoreStatistics display
          nextDisplayId := next
          displayBytes := jsonEstimatedBytes (.obj facts)
          archive := archive
          archiveTexts := texts
          archiveBytes := ((texts.map List.length).sum + (texts.length - 1) : Nat)
          droppedSegments := max 0 droppedSegments }
  | _, _ => none

end Conversation

end UAgent
