/-
UAgent/App/SessionMove.lean

Moving a conversation and the agents saved beside it to the history of
another folder (src/app/session_move.cc).

The move is a script of file operations: under the leases of the sessions,
everything beside a session file is renamed, then the file itself, one file
after another; then every moved record is rewritten, the usage ledgers follow
and the scheduled runs are pointed at the new files.  A journal holds the
move until it is done, and `recoverMove` runs it again from the top.

A session file is kept as the record that is read from it.  The directory
order is the file system's: `Listing` is any order at all.  There are no
symbolic links, so a canonical path is the path.
-/
import UAgent.Agent.SessionStore
import UAgent.Base.Script
import UAgent.Core.Paths
import Mathlib.Data.List.AList

namespace UAgent

open Bytes

/-! ### Paths as texts -/

/-- `filename()`. -/
def fileName (path : Bytes) : Bytes := afterLast (ch '/') path

/-- `parent_path()`. -/
def parentPath (path : Bytes) : Bytes := path.take (path.length - (fileName path).length - 1)

/-- `extension()`: from the last dot, unless that begins the name. -/
def pathExtension (path : Bytes) : Bytes :=
  let name := fileName path
  let after := afterLast (ch '.') name
  if after.length + 1 < name.length then ch '.' :: after else []

/-- `stem()`. -/
def pathStem (path : Bytes) : Bytes :=
  (fileName path).take ((fileName path).length - (pathExtension path).length)

/-- `lexically_normal() == path`. -/
def isNormal (path : Bytes) : Bool := (Path.parse path).lexicallyNormal.text = path

/-- `directory / name`. -/
def inDirectory (directory name : Bytes) : Bytes := directory ++ ch '/' :: name

/-- `SessionIdFor`. -/
def sessionIdFor (path : Bytes) : Bytes := hashHex path

/-- `WorkspaceId`. -/
def workspaceId (root : Bytes) : Bytes := hashHex root

/-- `SessionLockPath`. -/
def sessionLockPath (path : Bytes) : Bytes := path ++ lit ".lock"

def kSessionAssetsSuffix : Bytes := lit ".assets"
def kSessionEditsSuffix : Bytes := lit ".edits"

/-! ### The move -/

/-- `MovedFile`. -/
structure MovedFile where
  fromPath : Bytes
  toPath : Bytes
deriving DecidableEq

/-- `SessionMove`. -/
structure SessionMove where
  fromCwd : Bytes
  toCwd : Bytes
  note : Bytes
  /-- The conversation first, then its agents. -/
  files : List MovedFile
deriving DecidableEq

def kMoveFormat : Int := 1
def kMoveFiles : Nat := 256

/-- `MoveJson`. -/
def moveJson (move : SessionMove) : Json :=
  .ofFields [(lit "format", .int (Int64.ofInt kMoveFormat)), (lit "from", .str move.fromCwd),
    (lit "to", .str move.toCwd), (lit "note", .str move.note),
    (lit "files", .arr (move.files.map fun file =>
      .ofFields [(lit "from", .str file.fromPath), (lit "to", .str file.toPath)]))]

/-- Whether a file of the move lies where a move puts it. -/
def validFile (history target : Bytes) (file : MovedFile) : Bool :=
  isNormal file.fromPath && isNormal file.toPath && pathExtension file.fromPath = lit ".json" &&
    parentPath (parentPath file.fromPath) = history && parentPath file.fromPath ≠ target &&
    parentPath file.toPath = target && fileName file.toPath = fileName file.fromPath

/-- The directory a move goes to. -/
def targetDirectory (history : Bytes) (move : SessionMove) : Bytes :=
  inDirectory history (workspaceId move.toCwd)

/-- `ValidMove`. -/
def validMove (history : Bytes) (move : SessionMove) : Bool :=
  move.fromCwd ≠ [] && move.toCwd ≠ [] && move.fromCwd ≠ move.toCwd && move.note ≠ [] &&
    move.files ≠ [] && move.files.length ≤ kMoveFiles &&
    move.files.all (validFile history (targetDirectory history move))

/-- `MoveFromJson`. -/
def moveFromJson (history : Bytes) (value : Json) : Option SessionMove :=
  match jsonArray value (lit "files") with
  | none => none
  | some files =>
    if jsonValueInt64 value (lit "format") 0 ≠ kMoveFormat then none
    else
      let parsed : SessionMove :=
        { fromCwd := jsonValueStr value (lit "from") []
          toCwd := jsonValueStr value (lit "to") []
          note := jsonValueStr value (lit "note") []
          files := files.map fun item =>
            ⟨jsonValueStr item (lit "from") [], jsonValueStr item (lit "to") []⟩ }
      if validMove history parsed then some parsed else none

/-- `MovedIds`. -/
def movedIds (move : SessionMove) : List (Bytes × Bytes) :=
  move.files.foldl (fun ids file =>
    Assoc.insert (sessionIdFor file.fromPath) (sessionIdFor file.toPath) ids) []

/-! ### The disk -/

/-- What a name stands for. -/
inductive Entry
  | session (record : SessionRecord)
  | file (content : Bytes)
  | folder (content : List (Bytes × Bytes))
deriving DecidableEq

/-- The record of a session file. -/
def Entry.record? : Entry → Option SessionRecord
  | .session record => some record
  | _ => none

/-- What a move works on: the files of the histories, the usage ledgers by
session id and the runs of the schedule. -/
structure MoveWorld where
  files : AList fun _ : Bytes => Entry
  ledgers : AList fun _ : Bytes => Bytes
  runs : List Json

/-- One operation on the disk. -/
inductive FileOp
  | create (path : Bytes)
  | rename (source target : Bytes)
  | save (path : Bytes) (record : SessionRecord)
  | renameLedger (source target : Bytes)
  | saveRuns (runs : List Json)

namespace MoveWorld

/-- An operation is carried out. -/
def apply (w : MoveWorld) : FileOp → MoveWorld
  | .create path => { w with files := w.files.insert path (.file []) }
  | .rename source target =>
    match w.files.lookup source with
    | some entry => { w with files := (w.files.erase source).insert target entry }
    | none => w
  | .save path record => { w with files := w.files.insert path (.session record) }
  | .renameLedger source target =>
    match w.ledgers.lookup source with
    | some ledger => { w with ledgers := (w.ledgers.erase source).insert target ledger }
    | none => w
  | .saveRuns runs => { w with runs := runs }

end MoveWorld

/-- The order in which directories are listed. -/
structure Listing where
  order : List Bytes → List Bytes
  perm : ∀ names, (order names).Perm names

/-- What a move asks of its host: where the histories are, which folder a path
names, and the time. -/
structure MoveHost where
  history : Bytes
  /-- `CanonicalAccessPath`, of folders. -/
  canonical : Bytes → Bytes
  /-- `UtcStamp()`. -/
  stamp : Bytes

/-- A part of the move; it stops with the reason it gives. -/
abbrev MoveScript := Script MoveWorld FileOp Bytes

/-! ### Moving the files -/

/-- What sits beside the session file `path`: everything named `<file>.*`, and
its shared copy. -/
def isSidecar (path candidate : Bytes) : Bool :=
  parentPath candidate = parentPath path &&
    ((fileName path ++ lit ".").isPrefixOf (fileName candidate) ||
      fileName candidate = pathStem path ++ lit ".share.md")

/-- `Sidecars`. -/
def sidecars (listing : Listing) (path : Bytes) (w : MoveWorld) : List Bytes :=
  listing.order (w.files.keys.filter (isSidecar path))

/-- `Rename`: never over something. -/
def renameFile (source target : Bytes) : MoveScript := fun w =>
  if target ∈ w.files then ([], some (target ++ lit " exists already"))
  else if source ∈ w.files then ([.rename source target], none)
  else ([], some (lit "cannot move " ++ source ++ lit ": No such file or directory"))

/-- The sidecars that were listed move, then the session file. -/
def moveListed (file : MovedFile) (sides : List Bytes) : MoveScript :=
  .andThen MoveWorld.apply
    (.each MoveWorld.apply
      (fun side => renameFile side (inDirectory (parentPath file.toPath) (fileName side))) sides)
    (renameFile file.fromPath file.toPath)

/-- `MoveFiles`. -/
def moveFiles (listing : Listing) (file : MovedFile) : MoveScript := fun w =>
  if file.fromPath ∈ w.files then moveListed file (sidecars listing file.fromPath w) w
  else if file.toPath ∈ w.files then ([], none)
  else ([], some (file.fromPath ++ lit " is gone, and not where it moved"))

/-- `FileLease::Acquire`, nobody else holding the lease; `context` goes before
the reason of a failure. -/
def acquire (context path : Bytes) : MoveScript := fun w =>
  match w.files.lookup path with
  | none => ([.create path], none)
  | some (.folder _) =>
    ([], some (context ++ lit "cannot open private ownership file: " ++ path))
  | some _ => ([], none)

/-- The lease of one file that is still at its old place. -/
def holdFile (file : MovedFile) : MoveScript := fun w =>
  if file.fromPath ∈ w.files then
    acquire (lit "a conversation is open elsewhere: ") (sessionLockPath file.fromPath) w
  else ([], none)

/-- `HoldMove`. -/
def holdMove (move : SessionMove) : MoveScript := .each MoveWorld.apply holdFile move.files

/-! ### Rewriting the records -/

mutual

/-- A JSON value with every string leaf rewritten. -/
def mapStrings (f : Bytes → Bytes) : Json → Json
  | .str s => .str (f s)
  | .arr items => .arr (mapStringsItems f items)
  | .obj fields => .obj (mapStringsFields f fields)
  | j => j

def mapStringsItems (f : Bytes → Bytes) : List Json → List Json
  | [] => []
  | j :: items => mapStrings f j :: mapStringsItems f items

def mapStringsFields (f : Bytes → Bytes) : List (Bytes × Json) → List (Bytes × Json)
  | [] => []
  | (k, v) :: fields => (k, mapStrings f v) :: mapStringsFields f fields

end

mutual

/-- The string leaves of a JSON value, as `ForEachString` visits them. -/
def stringsOf : Json → List Bytes
  | .str s => [s]
  | .arr items => stringsOfItems items
  | .obj fields => stringsOfFields fields
  | _ => []

def stringsOfItems : List Json → List Bytes
  | [] => []
  | j :: items => stringsOf j ++ stringsOfItems items

def stringsOfFields : List (Bytes × Json) → List Bytes
  | [] => []
  | (_, v) :: fields => stringsOf v ++ stringsOfFields fields

end

/-- The strings `VisitStrings` visits. -/
def SessionState.strings (state : SessionState) : List Bytes :=
  stringsOf state.messages ++ stringsOf state.archive ++ stringsOf state.display

/-- What a text is rewritten by: asset and edit paths follow their files, ids
their sessions. -/
def renames (move : SessionMove) (file : MovedFile) : List (Bytes × Bytes) :=
  [(file.fromPath ++ kSessionAssetsSuffix ++ lit "/", file.toPath ++ kSessionAssetsSuffix ++ lit "/"),
    (file.fromPath ++ kSessionEditsSuffix ++ lit "/", file.toPath ++ kSessionEditsSuffix ++ lit "/")]
    ++ movedIds move

/-- One string is rewritten, and whether that changed it. -/
def rewriteText (renames : List (Bytes × Bytes)) (text : Bytes) : Bytes × Bool :=
  renames.foldl (fun state rename =>
    if (find rename.1 state.1).isSome then (replaceAll state.1 rename.1 rename.2, true)
    else state) (text, false)

/-- `HarnessMessage`. -/
def harnessMessage (content : Bytes) : Json :=
  .ofFields [(lit "role", .str (lit "system")), (lit "content", .str content)]

/-- The row a move is shown as. -/
def moveRow (note toCwd : Bytes) : Json :=
  .ofFields [(lit "view", .ofFields [(lit "verb", .arr [.str (lit "Moving"), .str (lit "Moved")]),
      (lit "target", .str toCwd)]),
    (lit "state", .str (lit "ok")), (lit "body_kind", .str (lit "text")), (lit "text", .str note),
    (lit "turn_root", .str [])]

/-- Whether the note is the transcript's last message already. -/
def hasNote (state : SessionState) (note : Bytes) : Bool :=
  state.messageKinds.getLast? = some .internal &&
    (state.messages.items.getLast?.map fun message =>
      jsonValueStr message (lit "content") []) = some note

section Rewrite

variable [DoubleText] [DoubleSum] (host : MoveHost) (move : SessionMove)

/-- `AddNote`: the note, once, and whether it was added. -/
def addNote (state : SessionState) : Except Bytes (SessionState × Bool) :=
  if hasNote state move.note then .ok (state, false)
  else
    match Conversation.restore state.messages state.messageKinds state.archive
      state.archiveDroppedSegments state.display with
    | none => .error (lit "the conversation's transcript is invalid")
    | some conversation =>
      let noted := ((conversation.push (harnessMessage move.note) .internal host.stamp).recordEntry
        (moveRow move.note move.toCwd) host.stamp).1
      .ok ({ state with
        messages := .arr noted.messages
        messageKinds := noted.kinds
        display := noted.displayMetadata }, true)

/-- The metadata of a moved session, and whether it changed. -/
def rewriteMetadata (metadata : SessionMetadata) : SessionMetadata × Bool :=
  let here := host.canonical metadata.cwd = host.canonical move.fromCwd
  let metadata := if here then { metadata with cwd := move.toCwd } else metadata
  match Assoc.lookup (jsonValueStr metadata.agent (lit "parent") []) (movedIds move) with
  | some parent =>
    ({ metadata with agent := metadata.agent.set (lit "parent") (.str parent) }, true)
  | none => (metadata, here)

/-- The texts of a moved session, and whether they changed. -/
def rewriteStrings (file : MovedFile) (state : SessionState) : SessionState × Bool :=
  let rewrite := fun text => (rewriteText (renames move file) text).1
  ({ state with
      messages := mapStrings rewrite state.messages
      archive := mapStrings rewrite state.archive
      display := mapStrings rewrite state.display },
    state.strings.any fun text => (rewriteText (renames move file) text).2)

/-- The edit `Rewrite` makes to a record; the first session is told of the
move. -/
def rewriteRecord (index : Nat) (file : MovedFile) (record : SessionRecord) :
    Except Bytes (SessionRecord × Bool) :=
  let metadata := rewriteMetadata host move record.metadata
  let state := rewriteStrings move file record.state
  if index = 0 then
    match addNote host move state.1 with
    | .error failed => .error failed
    | .ok noted => .ok (⟨metadata.1, noted.1⟩, metadata.2 || state.2 || noted.2)
  else .ok (⟨metadata.1, state.1⟩, metadata.2 || state.2)

/-- What `Rewrite` says of a file it could not change. -/
def cannotUpdate (file : MovedFile) : Bytes := lit "cannot update " ++ file.toPath ++ lit ": "

/-- `Rewrite`, its lease being held. -/
def rewriteHeld (index : Nat) (file : MovedFile) : MoveScript := fun w =>
  match w.files.lookup file.toPath with
  | some (.session record) =>
    match rewriteRecord host move index file record with
    | .error failed => ([], some failed)
    | .ok (record, changed) =>
      if !changed then ([], none)
      else
        match sessionText record with
        | .error e => ([], some (cannotUpdate file ++ e))
        | .ok _ => ([.save file.toPath record], none)
  | _ => ([], some (cannotUpdate file ++ lit "session is incomplete"))

/-- `Rewrite`. -/
def rewrite (entry : MovedFile × Nat) : MoveScript :=
  .andThen MoveWorld.apply (acquire (cannotUpdate entry.1) (sessionLockPath entry.1.toPath))
    (rewriteHeld host move entry.2 entry.1)

end Rewrite

/-! ### The whole move -/

/-- `MoveLedger`. -/
def moveLedger (ids : Bytes × Bytes) : MoveScript := fun w =>
  if ids.1 ∈ w.ledgers ∧ ids.2 ∉ w.ledgers then ([.renameLedger ids.1 ids.2], none) else ([], none)

/-- One run of `MoveScheduledSessions`. -/
def moveRun (files : List MovedFile) (run : Json) : Json :=
  match files.find? fun file => file.fromPath = jsonValueStr run (lit "session_path") [] with
  | some file => (run.set (lit "session_path") (.str file.toPath)).set (lit "session_id")
      (.str (sessionIdFor file.toPath))
  | none => run

/-- `MoveScheduledSessions`. -/
def moveScheduledSessions (move : SessionMove) : MoveScript := fun w =>
  if w.runs.map (moveRun move.files) = w.runs then ([], none)
  else ([.saveRuns (w.runs.map (moveRun move.files))], none)

section Move

variable [DoubleText] [DoubleSum] (host : MoveHost) (listing : Listing) (move : SessionMove)

/-- What follows once the files have moved. -/
def settleMove : MoveScript :=
  .andThen MoveWorld.apply (.each MoveWorld.apply (rewrite host move) move.files.zipIdx)
    (.andThen MoveWorld.apply (.each MoveWorld.apply moveLedger (movedIds move))
      (moveScheduledSessions move))

/-- `CarryOutMove`. -/
def carryOutMove : MoveScript :=
  .andThen MoveWorld.apply (.each MoveWorld.apply (moveFiles listing) move.files)
    (settleMove host move)

/-- A move from its beginning: the leases, then the move itself. -/
def wholeMove : MoveScript :=
  .andThen MoveWorld.apply (holdMove move) (carryOutMove host listing move)

/-- What `RecoverMoves` does with a journal: the move again, from its
beginning. -/
def recoverMove (journal : Json) : MoveScript :=
  match moveFromJson host.history journal with
  | some move => wholeMove host listing move
  | none => .stop (lit "is not a move this host can finish; left as it is")

end Move

end UAgent
