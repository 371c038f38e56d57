/-
UAgent/Core/Journal.lean

The journal of a session (`SessionJournal` of src/core/events.cc): a bounded
ring of JSON lines, kept in memory by `Append` and written to a file by
`Flush`.  A flush decides under the lock whether the file lacks only the last
lines (it appends them) or has to be written anew, writes without the lock,
and notes under the lock again what the file now holds.

Events may be appended between the two, from other threads.  The second
section forgets how many: it clears `unflushed_` and `rewrite_` as if the
lines were still those it wrote.  `JournalWorld` is the journal, the file and
the flush in flight; `stale` remembers that an event was forgotten so, or that
a write broke off.

Flushes come one after another: a session is saved from its main thread.
Numbers are counted, not taken modulo 2^64.
-/
import UAgent.Base.Lines
import UAgent.Base.Run
import UAgent.Core.Json
import UAgent.Core.Strings

namespace UAgent

open Bytes

/-! ### Events -/

/-- The events the journal tells apart. -/
inductive EventId
  | kSessionReady
  | kSessionResumed
  | kSessionEnded
  | kTurnStarted
  | kTurnStopped
  | kTurnCompleted
  | kTurnUsageAmended
  | kToolCall
  | kToolResult
  | kActivityCompleted
  | kCapabilityChanged
  | kConfigChanged
  | kPromptChanged
  | kNotice
  /-- an event with no journal type -/
  | other
deriving DecidableEq

/-- `PresentationStatus`. -/
inductive PresentationStatus
  | kNeutral
  | kSucceeded
  | kFailed
  | kCancelled
  | kWarned
deriving DecidableEq

/-- `PresentationStatusName`. -/
def presentationStatusName : PresentationStatus → Bytes
  | .kNeutral => lit "neutral"
  | .kSucceeded => lit "succeeded"
  | .kFailed => lit "failed"
  | .kCancelled => lit "cancelled"
  | .kWarned => lit "warned"

/-- `PresentationRecord`. -/
structure PresentationRecord where
  status : PresentationStatus := .kNeutral
  title : Bytes := []
  minor : Bool := false

/-- `PresentationJson`. -/
def presentationJson (record : PresentationRecord) : Json :=
  let value := Json.ofFields [(lit "title", .str record.title),
    (lit "status", .str (presentationStatusName record.status))]
  if record.minor then value.set (lit "minor") (.bool true) else value

/-- `Event`. -/
structure Event where
  id : EventId
  data : Json := .null
  presentation : Option PresentationRecord := none

/-- `PolicyFor(id).journal_type`: an event is durable when it has one. -/
def EventId.journalType : EventId → Option Bytes
  | .kSessionReady => some (lit "session.ready")
  | .kSessionResumed => some (lit "session.resumed")
  | .kSessionEnded => some (lit "session.ended")
  | .kTurnStarted => some (lit "turn.started")
  | .kTurnStopped | .kTurnCompleted => some (lit "turn.completed")
  | .kTurnUsageAmended => some (lit "turn.usage_amended")
  | .kToolCall => some (lit "tool.call")
  | .kToolResult => some (lit "tool.result")
  | .kActivityCompleted => some (lit "activity.completed")
  | .kCapabilityChanged => some (lit "capability.changed")
  | .kConfigChanged => some (lit "config.changed")
  | .kPromptChanged => some (lit "prompt.changed")
  | .kNotice => some (lit "notice")
  | .other => none

/-- The keys of an event's data that `JournalProjection` copies. -/
def EventId.journalKeys : EventId → List String
  | .kSessionReady => ["model", "route", "context_window", "capabilities", "provenance"]
  | .kSessionResumed => ["model", "messages"]
  | .kSessionEnded => ["reason", "usage", "context_tokens"]
  | .kTurnStarted => ["turn", "origin", "messages", "context_tokens"]
  | .kTurnStopped | .kTurnCompleted =>
    ["turn", "outcome", "steps", "tool_calls", "duration_ms", "ttt_ms", "tokens_per_second",
      "generation_ms", "generated_tokens", "usage", "messages", "context_tokens"]
  | .kTurnUsageAmended => ["turn", "usage", "statistics"]
  | .kToolCall =>
    ["turn", "step", "occurrence_id", "name", "arguments_digest", "issue_code", "issue_field"]
  | .kToolResult =>
    ["turn", "step", "occurrence_id", "name", "status", "completion_status", "error_code",
      "issue_code", "issue_field", "activity_operation", "no_change", "activity_terminal",
      "duration_ms", "result_chars", "artifact_path", "artifact_bytes"]
  | .kActivityCompleted => ["id", "kind", "command", "status", "output_chars"]
  | .kCapabilityChanged => ["feature", "from", "to", "reason"]
  | .kConfigChanged => ["permissions", "changed", "deferred", "source"]
  | .kPromptChanged => ["scope", "revision"]
  | .kNotice | .other => []

/-- The lambda `copy`, for one key. -/
def copyKey (source data : Json) (key : String) : Json :=
  match source.get? (lit key) with
  | some value => data.set (lit key) value
  | none => data

/-- `JournalProjection`. -/
def journalProjection (event : Event) : Json :=
  let data := event.id.journalKeys.foldl (copyKey event.data) (.obj [])
  let data :=
    match event.id, jsonStringRef event.data (lit "base_url") with
    | .kSessionReady, some url => data.set (lit "host") (.str (urlHost url))
    | _, _ => data
  match event.presentation with
  | some record => data.set (lit "presentation") (presentationJson record)
  | none => data

/-! ### The ring -/

def kMaxEvents : Nat := 512
def kMaxBytes : Nat := 256 * 1024

/-- `SessionJournal`. -/
structure SessionJournal where
  lines : List Bytes := []
  bytes : Nat := 0
  sequence : Int := 0
  enabled : Bool := true
  changes : Nat := 0
  flushedChanges : Nat := 0
  flushedPath : Bytes := []
  unflushed : Nat := 0
  rewrite : Bool := true

/-- The loop of `Append` that drops old lines for one of `lineBytes`: the
lines that stay, their bytes, and whether any went. -/
def dropOld (lineBytes : Nat) : List Bytes → Nat → List Bytes × Nat × Bool
  | [], bytes => ([], bytes, false)
  | front :: lines, bytes =>
    if kMaxEvents ≤ lines.length + 1 ∨ kMaxBytes < bytes + lineBytes then
      let left := dropOld lineBytes lines (bytes - (front.length + 1))
      (left.1, left.2.1, true)
    else (front :: lines, bytes, false)

namespace SessionJournal

section Append

variable [DoubleText]

/-- The line of an event: `time` is `UtcStamp()`. -/
def lineOf (j : SessionJournal) (time : Bytes) (event : Event) (journalType : Bytes) : Bytes :=
  (Json.ofFields [(lit "schema", .str (lit "uagent.session.event.v1")),
    (lit "seq", .int (Int64.ofInt (j.sequence + 1))), (lit "time", .str time),
    (lit "type", .str journalType), (lit "data", journalProjection event)]).dump

/-- A line goes into the ring. -/
def push (j : SessionJournal) (line : Bytes) : SessionJournal :=
  if kMaxBytes < line.length + 1 then j
  else
    let left := dropOld (line.length + 1) j.lines j.bytes
    { j with
      lines := left.1 ++ [line]
      bytes := left.2.1 + (line.length + 1)
      rewrite := j.rewrite || left.2.2
      unflushed := j.unflushed + 1
      changes := j.changes + 1 }

/-- `SessionJournal::Append`. -/
def append (j : SessionJournal) (time : Bytes) (event : Event) : SessionJournal :=
  match event.id.journalType with
  | none => j
  | some journalType =>
    if !j.enabled then j
    else { j with sequence := j.sequence + 1 }.push (j.lineOf time event journalType)

end Append

/-! ### Loading -/

/-- `ClearLocked`. -/
def clear (j : SessionJournal) : SessionJournal :=
  { j with rewrite := true, lines := [], bytes := 0, sequence := 0, changes := j.changes + 1 }

/-- A record `Load` takes. -/
def validRecord (record : Json) : Bool :=
  record.isObject && jsonValueStr record (lit "schema") [] = lit "uagent.session.event.v1" &&
    (jsonStringRef record (lit "type")).isSome && (jsonObject record (lit "data")).isSome

/-- The loop of `Load` over the lines of the file, what was loaded so far
being `lines`, `bytes` and `sequence`; nothing when a record is invalid.  Only
the last line may be torn. -/
def loadLines (parse : Bytes → Option Json) (lines : List Bytes) (bytes : Nat) (sequence : Int) :
    List Bytes → Option (List Bytes × Nat × Int)
  | [] => some (lines, bytes, sequence)
  | line :: rest =>
    match (parse line).filter validRecord with
    | none => if rest = [] then some (lines, bytes, sequence) else none
    | some record =>
      let sequence := max sequence (jsonValueInt64 record (lit "seq") 0)
      if kMaxBytes < line.length + 1 then loadLines parse lines bytes sequence rest
      else
        let left := dropOld (line.length + 1) lines bytes
        loadLines parse (left.1 ++ [line]) (left.2.1 + (line.length + 1)) sequence rest

/-- `SessionJournal::Load`: `file` is what the path holds, nothing when there
is no file, and `parse` reads one JSON value. -/
def load (j : SessionJournal) (parse : Bytes → Option Json) (file : Option Bytes) :
    SessionJournal × Bool :=
  let j := j.clear
  if !j.enabled then (j, true)
  else
    match file with
    | none => (j, true)
    | some text =>
      match loadLines parse [] 0 0 (fileLines text) with
      | none => (j, false)
      | some (lines, bytes, sequence) => ({ j with lines, bytes, sequence, rewrite := true }, true)

/-! ### Flushing -/

/-- What the first section of `Flush` takes with it. -/
structure Snapshot where
  changes : Nat
  /-- The file is appended to, and not replaced. -/
  append : Bool
  content : Bytes

/-- The file is known to lack the last `unflushed_` lines, and nothing else. -/
def appends (j : SessionJournal) (path : Bytes) : Bool :=
  j.flushedPath = path && !j.rewrite && 0 < j.unflushed && j.unflushed ≤ j.lines.length

/-- The first section of `Flush`; nothing when it returns true at once. -/
def snapshot (j : SessionJournal) (path : Bytes) : Option Snapshot :=
  if !j.enabled ∨ path = [] then none
  else if j.flushedPath = path ∧ j.flushedChanges = j.changes then none
  else
    let append := j.appends path
    let appended := if append then j.unflushed else j.lines.length
    some ⟨j.changes, append, unlines (j.lines.drop (j.lines.length - appended))⟩

/-- The second section of `Flush`. -/
def finish (j : SessionJournal) (path : Bytes) (changes : Nat) : SessionJournal :=
  { j with flushedPath := path, flushedChanges := changes, unflushed := 0, rewrite := false }

end SessionJournal

/-! ### The journal and its file -/

/-- How the write of a flush ends. -/
inductive WriteOutcome
  | done
  /-- `AppendPrivateLine` breaks off after some bytes, fewer than all. -/
  | short (bytes : Nat)
  /-- `WritePrivateFile` reports an error; the file may have been replaced. -/
  | failed (replaced : Bool)

/-- A flush between its two sections. -/
structure Flight where
  taken : SessionJournal.Snapshot
  /-- The lines of the journal when they were taken. -/
  ring : List Bytes
  written : Bool := false
  /-- The lines have changed since. -/
  overlapped : Bool := false

/-- The journal, the file at its path, and the flush in flight. -/
structure JournalWorld where
  journal : SessionJournal
  file : Bytes
  flight : Option Flight := none
  /-- The file lacks more than the last `unflushed_` lines, or is torn. -/
  stale : Bool := false

inductive JournalEvent
  | append (time : Bytes) (event : Event)
  /-- A flush takes its lines. -/
  | begin
  | write (outcome : WriteOutcome)
  /-- A flush that has written notes it, and returns true. -/
  | finish

namespace JournalWorld

variable [DoubleText] (path : Bytes)

/-- The write of a flush, and whether the flush goes on. -/
def write (w : JournalWorld) (flight : Flight) : WriteOutcome → JournalWorld
  | .done =>
    { w with
      file := if flight.taken.append then w.file ++ flight.taken.content else flight.taken.content
      flight := some { flight with written := true }
      stale := flight.taken.append && w.stale }
  | .short bytes =>
    if flight.taken.append then
      let kept := flight.taken.content.take (min bytes (flight.taken.content.length - 1))
      { w with file := w.file ++ kept, flight := none, stale := w.stale || !kept.isEmpty }
    else { w with flight := none }
  | .failed replaced =>
    if !flight.taken.append && replaced then
      { w with file := flight.taken.content, flight := none, stale := false }
    else { w with flight := none }

def step (w : JournalWorld) : JournalEvent → JournalWorld
  | .append time event =>
    let journal := w.journal.append time event
    { w with
      journal
      flight := w.flight.map fun flight =>
        { flight with
          overlapped := flight.overlapped || decide (journal.changes ≠ w.journal.changes) } }
  | .begin =>
    if w.flight.isSome then w
    else
      { w with
        flight := (w.journal.snapshot path).map fun taken =>
          ⟨taken, w.journal.lines, false, false⟩ }
  | .write outcome =>
    match w.flight with
    | some flight => if flight.written then w else w.write flight outcome
    | none => w
  | .finish =>
    match w.flight with
    | some flight =>
      if flight.written then
        { w with
          journal := w.journal.finish path flight.taken.changes
          flight := none
          stale := w.stale || flight.overlapped }
      else w
    | none => w

end JournalWorld

/-! ### What the operations do -/

theorem dropOld_spec (lineBytes : Nat) (lines : List Bytes) (bytes : Nat) :
    (dropOld lineBytes lines bytes).1 <:+ lines ∧
      ((dropOld lineBytes lines bytes).2.2 = false → (dropOld lineBytes lines bytes).1 = lines) := by
  induction lines generalizing bytes with
  | nil => exact ⟨List.suffix_rfl, fun _ => rfl⟩
  | cons front lines ih =>
    rw [dropOld]
    split_ifs
    · refine ⟨(ih _).1.trans (List.suffix_cons _ _), fun h => ?_⟩
      exact absurd h (by simp)
    · exact ⟨List.suffix_rfl, fun _ => rfl⟩

/-- What `Append` may do: nothing the file is about, or put one line behind
those that stay. -/
inductive Appended (j : SessionJournal) (j' : SessionJournal) : Prop
  | skipped (lines : j'.lines = j.lines) (changes : j'.changes = j.changes)
      (unflushed : j'.unflushed = j.unflushed) (rewrite : j'.rewrite = j.rewrite)
  | pushed (kept : List Bytes) (line : Bytes) (lines : j'.lines = kept ++ [line])
      (suffix : kept <:+ j.lines) (oneLine : OneLine line) (changes : j'.changes = j.changes + 1)
      (unflushed : j'.unflushed = j.unflushed + 1)
      (rewrite : j'.rewrite = false → j.rewrite = false ∧ kept = j.lines)

namespace SessionJournal

variable [DoubleText] {path : Bytes}

/-- An append leaves what flushes have noted. -/
theorem append_frame (j : SessionJournal) (time : Bytes) (event : Event) :
    (j.append time event).flushedPath = j.flushedPath ∧
      (j.append time event).flushedChanges = j.flushedChanges ∧
        (j.append time event).enabled = j.enabled := by
  unfold append push
  split
  · exact ⟨rfl, rfl, rfl⟩
  · split_ifs <;> exact ⟨rfl, rfl, rfl⟩

theorem append_cases [LineDoubles] (j : SessionJournal) (time : Bytes) (event : Event) :
    Appended j (j.append time event) := by
  unfold append
  split
  · exact .skipped rfl rfl rfl rfl
  · rename_i journalType _
    split_ifs
    · exact .skipped rfl rfl rfl rfl
    · unfold push
      split_ifs
      · exact .skipped rfl rfl rfl rfl
      · obtain ⟨hsuffix, hkept⟩ :=
          dropOld_spec ((j.lineOf time event journalType).length + 1) j.lines j.bytes
        refine .pushed _ _ rfl hsuffix (Json.oneLine_dump _) rfl rfl fun h => ?_
        obtain ⟨hrewrite, hnone⟩ := Bool.or_eq_false_iff.mp h
        exact ⟨hrewrite, hkept hnone⟩

omit [DoubleText] in
/-- A flush that takes its lines takes all of them, or those the file lacks. -/
theorem snapshot_some {j : SessionJournal} {taken : Snapshot} (h : j.snapshot path = some taken) :
    ¬(j.flushedPath = path ∧ j.flushedChanges = j.changes) ∧ taken.changes = j.changes ∧
      taken.append = j.appends path ∧
        taken.content = unlines (j.lines.drop (j.lines.length -
          if j.appends path then j.unflushed else j.lines.length)) := by
  unfold snapshot at h
  split_ifs at h with _ hflushed
  obtain rfl := Option.some.inj h
  exact ⟨hflushed, rfl, rfl, rfl⟩

/-- The journal is on, and its next flush writes the file anew. -/
structure Unflushed (path : Bytes) (j : SessionJournal) : Prop where
  enabled : j.enabled = true
  lines : ∀ line ∈ j.lines, OneLine line
  rewrite : j.rewrite = true
  behind : j.flushedChanges ≤ j.changes
  late : j.flushedPath = path → j.flushedChanges < j.changes

omit [DoubleText] in
theorem unflushed_new (hpath : path ≠ []) : ({} : SessionJournal).Unflushed path :=
  ⟨rfl, by simp, rfl, le_rfl, fun h => absurd h.symm hpath⟩

omit [DoubleText] in
theorem mem_loadLines {parse : Bytes → Option Json} {text : List Bytes} {lines : List Bytes}
    {bytes : Nat} {sequence : Int} {left : List Bytes × Nat × Int}
    (h : loadLines parse lines bytes sequence text = some left) :
    ∀ line ∈ left.1, line ∈ lines ∨ line ∈ text := by
  induction text generalizing lines bytes sequence with
  | nil =>
    obtain rfl := Option.some.inj h
    exact fun line hline => .inl hline
  | cons first text ih =>
    rw [loadLines] at h
    split at h
    · split_ifs at h
      obtain rfl := Option.some.inj h
      exact fun line hline => .inl hline
    · dsimp only at h
      intro line hline
      split_ifs at h
      · exact (ih h line hline).imp_right (List.mem_cons_of_mem _)
      · rcases ih h line hline with hline | hline
        · rcases List.mem_append.mp hline with hline | hline
          · exact .inl ((dropOld_spec _ _ _).1.subset hline)
          · exact .inr (List.mem_singleton.mp hline ▸ List.mem_cons_self)
        · exact .inr (List.mem_cons_of_mem _ hline)

omit [DoubleText] in
/-- A journal that is on and was just read is written anew by its next flush. -/
theorem unflushed_load {j : SessionJournal} (henabled : j.enabled = true)
    (hbehind : j.flushedChanges ≤ j.changes) (parse : Bytes → Option Json)
    (file : Option Bytes) : (j.load parse file).1.Unflushed path := by
  have hclear : j.clear.Unflushed path :=
    ⟨henabled, by simp [clear], rfl, Nat.le_succ_of_le hbehind, fun _ => Nat.lt_succ_of_le hbehind⟩
  unfold load
  rw [if_neg (by simp [hclear.enabled])]
  cases file with
  | none => exact hclear
  | some text =>
    dsimp only
    rcases hleft : loadLines parse [] 0 0 (fileLines text) with - | ⟨lines, bytes, sequence⟩
    · exact hclear
    · refine ⟨hclear.enabled, fun line hline => ?_, rfl, hclear.behind, hclear.late⟩
      refine oneLine_of_mem_fileLines ((mem_loadLines hleft line hline).resolve_left ?_)
      exact List.not_mem_nil

end SessionJournal

/-! ### The journal and its file agree -/

namespace JournalWorld

/-- What holds of a flush before it writes. -/
structure Pending (w : JournalWorld) (path : Bytes) (flight : Flight) : Prop where
  /-- The journal holds what the file has not. -/
  behind : w.journal.flushedPath = path → w.journal.flushedChanges < w.journal.changes
  /-- Appended to the file, the content makes it the lines that were taken. -/
  append : flight.taken.append = true → w.file ++ flight.taken.content = unlines flight.ring
  /-- The content is the lines that were taken, and more have come since. -/
  replace : flight.taken.append = false → flight.taken.content = unlines flight.ring ∧
    (w.journal.flushedPath = path → w.journal.rewrite = false →
      ∃ later, w.journal.lines = flight.ring ++ later ∧ w.journal.unflushed = later.length)

/-- What holds of a flush in flight. -/
structure InFlight (w : JournalWorld) (path : Bytes) (flight : Flight) : Prop where
  ring : ∀ line ∈ flight.ring, OneLine line
  quiet : flight.overlapped = false →
    w.journal.lines = flight.ring ∧ w.journal.changes = flight.taken.changes
  overlapped : flight.overlapped = true → flight.taken.changes < w.journal.changes
  pending : flight.written = false → Pending w path flight
  written : flight.written = true → w.file = unlines flight.ring

/-- The file is known to hold the journal's lines up to the last ones. -/
structure Agrees (w : JournalWorld) (path : Bytes) : Prop where
  tail : w.journal.flushedPath = path → w.journal.rewrite = false → w.stale = false →
    w.file = unlines (w.journal.lines.take (w.journal.lines.length - w.journal.unflushed))
  synced : w.journal.flushedPath = path → w.journal.flushedChanges = w.journal.changes →
    w.file = unlines w.journal.lines

/-- The invariant. -/
structure Inv (path : Bytes) (w : JournalWorld) : Prop where
  enabled : w.journal.enabled = true
  lines : ∀ line ∈ w.journal.lines, OneLine line
  behind : w.journal.flushedChanges ≤ w.journal.changes
  counted : w.journal.rewrite = false → w.journal.unflushed ≤ w.journal.lines.length
  /-- The file is in step, but between a flush's write and its end. -/
  agrees : (∀ flight ∈ w.flight, flight.written = false) → Agrees w path
  flight : ∀ flight ∈ w.flight, InFlight w path flight

/-- The condition: no flush appends to a file that is stale. -/
def SoundBegin (path : Bytes) (w : JournalWorld) : JournalEvent → Prop
  | .begin => w.journal.appends path = true → w.stale = false
  | _ => True

instance (path : Bytes) (w : JournalWorld) (e : JournalEvent) : Decidable (SoundBegin path w e) := by
  cases e <;> unfold SoundBegin <;> infer_instance

section Steps

variable {path : Bytes} {w : JournalWorld}

/-- The file in front of an append, and what is appended. -/
theorem take_append_drop_unlines (lines : List Bytes) (n : Nat) :
    unlines (lines.take n) ++ unlines (lines.drop n) = unlines lines := by
  rw [← unlines_append, List.take_append_drop]

theorem Agrees.append (h : Agrees w path) (hbehind : w.journal.flushedChanges ≤ w.journal.changes)
    {j' : SessionJournal} (hj : Appended w.journal j')
    (hpath : j'.flushedPath = w.journal.flushedPath)
    (hflushed : j'.flushedChanges = w.journal.flushedChanges) (flight : Option Flight) :
    Agrees { w with journal := j', flight } path := by
  cases hj with
  | skipped lines changes unflushed rewrite =>
    refine ⟨fun hp hr hs => ?_, fun hp hc => ?_⟩
    · show w.file = unlines (j'.lines.take (j'.lines.length - j'.unflushed))
      rw [lines, unflushed]
      exact h.tail (hpath ▸ hp) (rewrite ▸ hr) hs
    · show w.file = unlines j'.lines
      rw [lines]
      exact h.synced (hpath ▸ hp) (by rw [← hflushed, ← changes]; exact hc)
  | pushed kept line lines suffix oneLine changes unflushed rewrite =>
    refine ⟨fun hp hr hs => ?_, fun hp hc => ?_⟩
    · obtain ⟨hrewrite, rfl⟩ := rewrite hr
      show w.file = unlines (j'.lines.take (j'.lines.length - j'.unflushed))
      rw [lines, unflushed, List.length_append, List.length_singleton, Nat.add_sub_add_right,
        List.take_append_of_le_length (Nat.sub_le _ _)]
      exact h.tail (hpath ▸ hp) hrewrite hs
    · -- the file cannot hold a line that has just come
      have hc' : j'.flushedChanges = j'.changes := hc
      omega

theorem InFlight.append {flight : Flight} (h : InFlight w path flight) {j' : SessionJournal}
    (hj : Appended w.journal j') (hpath : j'.flushedPath = w.journal.flushedPath)
    (hflushed : j'.flushedChanges = w.journal.flushedChanges) (other : Option Flight) :
    InFlight { w with journal := j', flight := other } path
      { flight with
        overlapped := flight.overlapped || decide (j'.changes ≠ w.journal.changes) } := by
  cases hj with
  | skipped lines changes unflushed rewrite =>
    have hsame : (flight.overlapped || decide (j'.changes ≠ w.journal.changes)) =
        flight.overlapped := by simp [changes]
    rw [hsame]
    refine ⟨h.ring, fun hq => ?_, fun ho => ?_, fun hw => ?_, h.written⟩
    · exact ⟨lines.trans (h.quiet hq).1, changes.trans (h.quiet hq).2⟩
    · show _ < j'.changes
      rw [changes]
      exact h.overlapped ho
    · obtain ⟨hbehind, happend, hreplace⟩ := h.pending hw
      refine ⟨fun hp => ?_, happend, fun ha => ⟨(hreplace ha).1, fun hp hr => ?_⟩⟩
      · show j'.flushedChanges < j'.changes
        rw [changes, hflushed]
        exact hbehind (hpath ▸ hp)
      · show ∃ later, j'.lines = _ ∧ j'.unflushed = _
        rw [lines, unflushed]
        exact (hreplace ha).2 (hpath ▸ hp) (rewrite ▸ hr)
  | pushed kept line lines suffix oneLine changes unflushed rewrite =>
    have hmore : (flight.overlapped || decide (j'.changes ≠ w.journal.changes)) = true := by
      simp [changes]
    rw [hmore]
    refine ⟨h.ring, fun hq => absurd hq (by simp), fun _ => ?_, fun hw => ?_, h.written⟩
    · show flight.taken.changes < j'.changes
      rw [changes]
      cases ho : flight.overlapped with
      | false => exact Nat.lt_succ_of_le (h.quiet ho).2.ge
      | true => exact Nat.lt_succ_of_lt (h.overlapped ho)
    · obtain ⟨hbehind, happend, hreplace⟩ := h.pending hw
      refine ⟨fun hp => ?_, happend, fun ha => ⟨(hreplace ha).1, fun hp hr => ?_⟩⟩
      · show j'.flushedChanges < j'.changes
        rw [changes, hflushed]
        exact Nat.lt_succ_of_lt (hbehind (hpath ▸ hp))
      · obtain ⟨hrewrite, rfl⟩ := rewrite hr
        obtain ⟨later, hlater, hcount⟩ := (hreplace ha).2 (hpath ▸ hp) hrewrite
        refine ⟨later ++ [line], ?_, ?_⟩
        · rw [← List.append_assoc, ← hlater]
          exact lines
        · rw [List.length_append, List.length_singleton, ← hcount]
          exact unflushed

/-- A flush does not count for what the file and the journal are. -/
theorem Agrees.of_flight (h : Agrees w path) (flight : Option Flight) :
    Agrees { w with flight } path := ⟨h.tail, h.synced⟩

variable [DoubleText]

/-- An event is appended, whatever the flush does. -/
theorem Inv.append [LineDoubles] (h : Inv path w) (time : Bytes) (event : Event) :
    Inv path (w.step path (.append time event)) := by
  obtain ⟨hpath, hflushed, henabled⟩ := w.journal.append_frame time event
  have hj := w.journal.append_cases time event
  have hflight : ∀ flight ∈ (w.step path (.append time event)).flight,
      ∃ old ∈ w.flight, flight = { old with
        overlapped := old.overlapped ||
          decide ((w.journal.append time event).changes ≠ w.journal.changes) } := by
    intro flight hmem
    obtain ⟨old, hold, rfl⟩ := Option.map_eq_some_iff.mp hmem
    exact ⟨old, hold, rfl⟩
  refine ⟨henabled.trans h.enabled, ?_, ?_, ?_, fun hw => ?_, fun flight hmem => ?_⟩
  · show ∀ line ∈ (w.journal.append time event).lines, OneLine line
    intro line hline
    cases hj with
    | skipped lines => exact h.lines line (lines ▸ hline)
    | pushed kept new lines suffix oneLine =>
      rw [lines, List.mem_append, List.mem_singleton] at hline
      rcases hline with hline | rfl
      · exact h.lines line (suffix.subset hline)
      · exact oneLine
  · show (w.journal.append time event).flushedChanges ≤ (w.journal.append time event).changes
    have hbehind := h.behind
    cases hj with
    | skipped _ changes => omega
    | pushed _ _ _ _ _ changes => omega
  · show (w.journal.append time event).rewrite = false →
      (w.journal.append time event).unflushed ≤ (w.journal.append time event).lines.length
    intro hr
    cases hj with
    | skipped lines changes unflushed rewrite =>
      rw [lines, unflushed]
      exact h.counted (rewrite ▸ hr)
    | pushed kept new lines suffix oneLine changes unflushed rewrite =>
      obtain ⟨hrewrite, rfl⟩ := rewrite hr
      rw [lines, unflushed, List.length_append, List.length_singleton]
      exact Nat.succ_le_succ (h.counted hrewrite)
  · refine (h.agrees fun old hold => ?_).append h.behind hj hpath hflushed _
    have hsome : w.flight = some old := hold
    have hmem := hw _ (congrArg (Option.map _) hsome)
    exact hmem
  · obtain ⟨old, hold, rfl⟩ := hflight flight hmem
    exact (h.flight old hold).append hj hpath hflushed _

/-- A flush takes its lines. -/
theorem Inv.begin (h : Inv path w) (hok : SoundBegin path w .begin) :
    Inv path (w.step path .begin) := by
  show Inv path (if w.flight.isSome then w else { w with flight := _ })
  split_ifs with hfree
  · exact h
  · have hnone : w.flight = none := by simpa using hfree
    have hagrees : Agrees w path := h.agrees (by simp [hnone])
    rcases htaken : w.journal.snapshot path with - | taken
    · exact ⟨h.enabled, h.lines, h.behind, h.counted, fun _ => hagrees.of_flight none, by simp⟩
    · refine ⟨h.enabled, h.lines, h.behind, h.counted, fun _ => hagrees.of_flight _, fun flight hmem => ?_⟩
      obtain rfl : (⟨taken, w.journal.lines, false, false⟩ : Flight) = flight :=
        Option.some.inj hmem
      obtain ⟨hlate, hchanges, happend, hcontent⟩ := SessionJournal.snapshot_some htaken
      refine ⟨h.lines, fun _ => ⟨rfl, hchanges.symm⟩, fun ho => absurd ho (by simp), fun _ => ?_,
        fun hw => absurd hw (by simp)⟩
      refine ⟨fun hp => lt_of_le_of_ne h.behind fun he => hlate ⟨hp, he⟩, fun ha => ?_,
        fun ha => ⟨?_, fun hp hr => ⟨[], ?_, ?_⟩⟩⟩
      · have hap : w.journal.appends path = true := happend ▸ ha
        have hap' := hap
        simp only [SessionJournal.appends, Bool.and_eq_true, decide_eq_true_eq,
          Bool.not_eq_true'] at hap'
        show w.file ++ taken.content = unlines w.journal.lines
        rw [hcontent, if_pos hap, hagrees.tail hap'.1.1.1 hap'.1.1.2 (hok hap)]
        exact take_append_drop_unlines _ _
      · have hap : w.journal.appends path = false := happend ▸ ha
        show taken.content = unlines w.journal.lines
        rw [hcontent, if_neg (by simp [hap]), Nat.sub_self, List.drop_zero]
      · exact (List.append_nil _).symm
      · -- nothing is behind the file that a flush would replace for no other reason
        have hap : w.journal.appends path = false := happend ▸ ha
        have hcounted := h.counted hr
        have hp' : w.journal.flushedPath = path := hp
        have hr' : w.journal.rewrite = false := hr
        simp only [SessionJournal.appends, hp', hr', decide_true, Bool.not_false, Bool.and_self,
          Bool.true_and, Bool.and_eq_false_iff, decide_eq_false_iff_not] at hap
        show w.journal.unflushed = 0
        omega

omit [DoubleText] in
/-- A flush writes, or fails to. -/
theorem Inv.write (h : Inv path w) {flight : Flight} (hflight : w.flight = some flight)
    (hunwritten : flight.written = false) (outcome : WriteOutcome) :
    Inv path (w.write flight outcome) := by
  have hin := h.flight flight hflight
  obtain ⟨hbehind, happend, hreplace⟩ := hin.pending hunwritten
  have hagrees : Agrees w path := h.agrees fun other hother => by
    rw [hflight, Option.mem_some] at hother
    exact hother ▸ hunwritten
  have hlate : ¬(w.journal.flushedPath = path ∧ w.journal.flushedChanges = w.journal.changes) :=
    fun hp => (hbehind hp.1).ne hp.2
  cases outcome with
  | done =>
    refine ⟨h.enabled, h.lines, h.behind, h.counted, fun hw => ?_, fun other hother => ?_⟩
    · exact absurd (hw _ rfl) (by simp)
    · obtain rfl : { flight with written := true } = other := Option.some.inj hother
      refine ⟨hin.ring, hin.quiet, hin.overlapped, fun hw => absurd hw (by simp), fun _ => ?_⟩
      show (if flight.taken.append then w.file ++ flight.taken.content
        else flight.taken.content) = unlines flight.ring
      cases ha : flight.taken.append with
      | true => exact happend ha
      | false => exact (hreplace ha).1
  | short bytes =>
    cases ha : flight.taken.append with
    | true =>
      simp only [JournalWorld.write, ha, if_true]
      refine ⟨h.enabled, h.lines, h.behind, h.counted, fun _ => ⟨fun hp hr hs => ?_, fun hp hc => ?_⟩,
        by simp⟩
      · -- a write that left nothing has changed nothing
        obtain ⟨hstale, hkept⟩ := Bool.or_eq_false_iff.mp hs
        rw [Bool.not_eq_false', List.isEmpty_iff] at hkept
        show w.file ++ _ = _
        rw [hkept, List.append_nil]
        exact hagrees.tail hp hr hstale
      · exact absurd ⟨hp, hc⟩ hlate
    | false =>
      simp only [JournalWorld.write, ha, Bool.false_eq_true, if_false]
      exact ⟨h.enabled, h.lines, h.behind, h.counted, fun _ => hagrees.of_flight none, by simp⟩
  | failed replaced =>
    show Inv path (if !flight.taken.append && replaced then _ else _)
    split_ifs with hreplaced
    · have hboth : flight.taken.append = false ∧ replaced = true := by simpa using hreplaced
      have ha := hboth.1
      refine ⟨h.enabled, h.lines, h.behind, h.counted, fun _ => ⟨fun hp hr _ => ?_, fun hp hc => ?_⟩,
        by simp⟩
      · obtain ⟨later, hlines, hcount⟩ := (hreplace ha).2 hp hr
        show flight.taken.content =
          unlines (w.journal.lines.take (w.journal.lines.length - w.journal.unflushed))
        rw [hlines, hcount, List.length_append, Nat.add_sub_cancel, List.take_left]
        exact (hreplace ha).1
      · exact absurd ⟨hp, hc⟩ hlate
    · exact ⟨h.enabled, h.lines, h.behind, h.counted, fun _ => hagrees.of_flight none, by simp⟩

/-- A flush that has written notes it. -/
theorem Inv.finish (h : Inv path w) : Inv path (w.step path .finish) := by
  unfold step
  rcases hflight : w.flight with - | flight
  · exact h
  · dsimp only
    split_ifs with hwritten
    · have hin := h.flight flight hflight
      have hfile := hin.written hwritten
      refine ⟨h.enabled, h.lines, ?_, fun _ => Nat.zero_le _, fun _ => ⟨fun _ _ hs => ?_, fun _ hc => ?_⟩,
        by simp⟩
      · show flight.taken.changes ≤ w.journal.changes
        cases ho : flight.overlapped with
        | false => exact (hin.quiet ho).2.ge
        | true => exact (hin.overlapped ho).le
      · have ho := (Bool.or_eq_false_iff.mp hs).2
        show w.file = unlines (w.journal.lines.take (w.journal.lines.length - 0))
        rw [Nat.sub_zero, List.take_length, (hin.quiet ho).1]
        exact hfile
      · have hc' : flight.taken.changes = w.journal.changes := hc
        have ho : flight.overlapped = false := by
          by_contra ho
          exact (hin.overlapped (by simpa using ho)).ne hc'
        show w.file = unlines w.journal.lines
        rw [(hin.quiet ho).1]
        exact hfile
    · exact h

/-- Every step keeps the invariant. -/
theorem Inv.step [LineDoubles] (h : Inv path w) {e : JournalEvent} (hok : SoundBegin path w e) :
    Inv path (w.step path e) := by
  cases e with
  | append time event => exact h.append time event
  | begin => exact h.begin hok
  | write outcome =>
    unfold JournalWorld.step
    rcases hflight : w.flight with - | flight
    · exact h
    · dsimp only
      split_ifs with hwritten
      · exact h
      · exact h.write hflight (by simpa using hwritten) outcome
  | finish => exact h.finish

omit [DoubleText] in
theorem Inv.of_unflushed {j : SessionJournal} (h : j.Unflushed path) (file : Bytes) :
    Inv path ⟨j, file, none, false⟩ := by
  refine ⟨h.enabled, h.lines, h.behind, fun hr => ?_, fun _ => ⟨fun _ hr => ?_, fun hp hc => ?_⟩,
    by simp⟩
  · exact absurd (h.rewrite.symm.trans hr) (by simp)
  · exact absurd (h.rewrite.symm.trans hr) (by simp)
  · exact absurd hc (h.late hp).ne

end Steps

/-! ### What a flush leaves -/

/-- The lines that were taken by the flush that `e` ends with true. -/
def returned (path : Bytes) (w : JournalWorld) : JournalEvent → Option (List Bytes)
  | .begin =>
    if w.flight.isNone && (w.journal.snapshot path).isNone then some w.journal.lines else none
  | .finish => (w.flight.filter (·.written)).map (·.ring)
  | _ => none

section Returned

variable [DoubleText] {path : Bytes} {w : JournalWorld} {ring : List Bytes}

omit [DoubleText] in
/-- A flush that returns at once has nothing to write. -/
theorem Inv.synced (h : Inv path w) (hpath : path ≠ []) (hfree : w.flight = none)
    (hnone : w.journal.snapshot path = none) : w.file = unlines w.journal.lines := by
  have hsame : w.journal.flushedPath = path ∧ w.journal.flushedChanges = w.journal.changes := by
    by_contra hdiffers
    rw [SessionJournal.snapshot, if_neg (by simp [h.enabled, hpath]), if_neg hdiffers] at hnone
    exact absurd hnone (by simp)
  exact (h.agrees (by simp [hfree])).synced hsame.1 hsame.2

theorem Inv.returned (h : Inv path w) (hpath : path ≠ []) {e : JournalEvent}
    (hreturned : w.returned path e = some ring) :
    fileLines (w.step path e).file = ring ∧
      ((∀ flight ∈ w.flight, flight.overlapped = false) →
        ring = (w.step path e).journal.lines) := by
  cases e with
  | append time event => exact absurd hreturned (by simp [JournalWorld.returned])
  | write outcome => exact absurd hreturned (by simp [JournalWorld.returned])
  | begin =>
    rw [JournalWorld.returned] at hreturned
    split_ifs at hreturned with hquiet
    obtain rfl := Option.some.inj hreturned
    rw [Bool.and_eq_true, Option.isNone_iff_eq_none, Option.isNone_iff_eq_none] at hquiet
    have hstep : (w.step path .begin).file = w.file ∧
        (w.step path .begin).journal = w.journal := by
      simp [JournalWorld.step, hquiet.1]
    rw [hstep.1, hstep.2, h.synced hpath hquiet.1 hquiet.2]
    exact ⟨fileLines_unlines h.lines, fun _ => rfl⟩
  | finish =>
    obtain ⟨flight, hflight, rfl⟩ := Option.map_eq_some_iff.mp hreturned
    obtain ⟨hflight, hwritten⟩ := Option.filter_eq_some_iff.mp hflight
    have hin := h.flight flight hflight
    have hstep : (w.step path .finish).file = w.file ∧
        (w.step path .finish).journal.lines = w.journal.lines := by
      simp [JournalWorld.step, hflight, hwritten, SessionJournal.finish]
    rw [hstep.1, hstep.2, hin.written hwritten]
    refine ⟨fileLines_unlines hin.ring, fun hquiet => ?_⟩
    exact (hin.quiet (hquiet flight hflight)).1.symm

end Returned

/-- **Flushes that append to a file in step.**  In a run in which every flush
that appends finds the file in step, a flush that returns true leaves the
lines it took in the file: those of the journal, when none came meanwhile. -/
theorem flush_faithful [DoubleText] [LineDoubles] {path : Bytes} (hpath : path ≠ [])
    {j : SessionJournal} (hj : j.Unflushed path) (file : Bytes) {w : JournalWorld}
    (h : Run (step path) (SoundBegin path) ⟨j, file, none, false⟩ w) {e : JournalEvent}
    {ring : List Bytes} (hreturned : w.returned path e = some ring) :
    fileLines (w.step path e).file = ring ∧
      ((∀ flight ∈ w.flight, flight.overlapped = false) →
        ring = (w.step path e).journal.lines) :=
  (h.invariant (Inv.of_unflushed hj file) fun _ _ hinv hstep => hinv.step hstep).returned hpath
    hreturned

/-! ### Events that come while a flush writes -/

/-- A notice, `title` being its text. -/
def noticeOf (title : Bytes) : JournalEvent :=
  .append (lit "2026-01-01T00:00:00Z") ⟨.kNotice, .null, some ⟨.kNeutral, title, false⟩⟩

/-- A flush from its first section to its second, `later` coming meanwhile. -/
def flushing (later : List JournalEvent) : List JournalEvent :=
  .begin :: .write .done :: later ++ [.finish]

/-- A run from a new journal. -/
def runNew (events : List JournalEvent) : JournalWorld :=
  let _ := Json.bitsText
  events.foldl (step (lit "j")) ⟨{}, [], none, false⟩

theorem runNew_concat (events : List JournalEvent) (e : JournalEvent) :
    runNew (events ++ [e]) = @step Json.bitsText (lit "j") (runNew events) e :=
  List.foldl_append

/-- An event comes while a flush writes, and another flush follows. -/
def followed : List JournalEvent :=
  noticeOf (lit "a") :: flushing [noticeOf (lit "b")] ++ [.begin, .write .done]

theorem flush_faithful_followed :
    fileLines (runNew (followed ++ [.finish])).file =
      (runNew (followed ++ [.finish])).journal.lines := by
  let _ := Json.bitsText
  have := Json.oneLine_bitsText
  have hpath : lit "j" ≠ [] := by decide
  have hrun : Run (step (lit "j")) (SoundBegin (lit "j")) ⟨{}, [], none, false⟩
      (runNew followed) := Run.of_allOk (by decide +kernel)
  have hreturned : (runNew followed).returned (lit "j") .finish =
      some (runNew followed).journal.lines := by decide +kernel
  have hsound := flush_faithful hpath (SessionJournal.unflushed_new hpath) [] hrun hreturned
  have hlines : (step (lit "j") (runNew followed) .finish).journal.lines =
      (runNew followed).journal.lines := by decide +kernel
  rw [runNew_concat, hlines]
  exact hsound.1

/-- The second of three events comes while the first is written; the third is
written by a flush nothing comes into. -/
def forgetful : List JournalEvent :=
  noticeOf (lit "a") :: flushing [noticeOf (lit "b")] ++
    noticeOf (lit "c") :: [.begin, .write .done]

/-- **A flush forgets an event.**  The file has two lines when the second flush
returns true, and the journal three. -/
theorem flush_forgets :
    (runNew forgetful).returned (lit "j") .finish = some (runNew forgetful).journal.lines ∧
      (runNew forgetful).flight.all (!·.overlapped) = true ∧
        (runNew forgetful).journal.lines.length = 3 ∧
          (fileLines (runNew (forgetful ++ [.finish])).file).length = 2 := by
  decide +kernel

end JournalWorld

end UAgent
