/-
UAgent/Agent/EditJournal.lean

What each turn's file tools changed (`EditJournal`, src/agent/edit_journal.cc),
kept so a person can put the files back.  For each turn and file it keeps the
bytes from before the turn's first change, as a blob in the journal's
directory, and a hash of what the turn left.

`EditState` is the journal, the files it is about and the files of its
directory.  Reading, writing and removing a file may fail; which of them do is
an argument of the operation (`EditIo`).
-/
import UAgent.Base.Lines
import UAgent.Base.Weight
import UAgent.Core.Json
import UAgent.Core.Strings

namespace UAgent

open Bytes

/-! ### Files -/

/-- What a path names; `other` is whatever is there and is no regular file. -/
inductive DiskNode where
  | absent
  | regular (content : Bytes) (mode : Nat)
  | other
  deriving DecidableEq, Repr

/-- What the system says about a failure; it always says something. -/
structure Cause where
  text : Bytes
  said : text ≠ []

/-- `ReadRegularFile`; `fault` is a read that fails. -/
def readRegularFile (node : DiskNode) (cap : Nat) (fault : Option Cause) : Except Bytes Bytes :=
  match node, fault with
  | .regular content _, fault =>
    if cap < content.length then .error (lit "file exceeds read limit")
    else
      match fault with
      | some cause => .error cause.text
      | none => .ok content
  | _, _ => .error (lit "cannot read regular file")

/-- Where `AtomicWriteFile` stops. -/
inductive WriteFault where
  | parent (cause : Cause)
  | symlink (cause : Cause)
  | temp (cause : Cause)
  | chmod (cause : Cause)
  | write (cause : Cause)
  | replace (cause : Cause)
  | sync (cause : Cause)

namespace WriteFault

/-- The error of `AtomicWriteFile`. -/
def text (path : Bytes) : WriteFault → Bytes
  | parent cause => lit "cannot create parent directory for " ++ path ++ lit ": " ++ cause.text
  | symlink cause => lit "cannot resolve symlink " ++ path ++ lit ": " ++ cause.text
  | temp cause => lit "cannot create temporary file for " ++ path ++ lit ": " ++ cause.text
  | chmod cause => cause.text
  | write cause => lit "write to " ++ path ++ lit " failed: " ++ cause.text
  | replace cause => lit "cannot write " ++ path ++ lit ": " ++ cause.text
  | sync cause => lit "replaced " ++ path ++ lit " but could not sync its directory: " ++ cause.text

/-- The file has been replaced when only its directory could not be synced. -/
def replaced : WriteFault → Bool
  | sync _ => true
  | _ => false

end WriteFault

/-- `AtomicWriteFile` over what is at `path`, and its error. -/
def atomicWriteFile (path content : Bytes) (createMode : Nat) (preserveMode : Bool)
    (node : DiskNode) (fault : Option WriteFault) : DiskNode × Option Bytes :=
  let mode :=
    match node with
    | .regular _ mode => if preserveMode then mode else createMode
    | _ => createMode
  match fault with
  | none => (.regular content mode, none)
  | some fault => (if fault.replaced then .regular content mode else node, some (fault.text path))

/-- Every failure a tool reports starts with the same marker. -/
def kToolErrorPrefix : Bytes := lit "error: "

/-- The output of `ToolFailure`. -/
def toolFailure (output : Bytes) : Bytes :=
  if kToolErrorPrefix.isPrefixOf output then output else kToolErrorPrefix ++ output

/-- `kPrivateFileMode` -/
def kPrivateFileMode : Nat := 0o600

/-! ### The journal's directory -/

/-- The files of the journal's directory. -/
structure EditStore where
  files : List (Bytes × Bytes) := []
  sorted : Assoc.Sorted files := by decide

namespace EditStore

def empty : EditStore := {}

def node (store : EditStore) (name : Bytes) : DiskNode :=
  match Assoc.lookup name store.files with
  | some content => .regular content kPrivateFileMode
  | none => .absent

def set (store : EditStore) (name content : Bytes) : EditStore where
  files := Assoc.insert name content store.files
  sorted := Assoc.sorted_insert store.sorted name content

def remove (store : EditStore) (name : Bytes) : EditStore where
  files := Assoc.erase name store.files
  sorted := Assoc.sorted_erase store.sorted name

/-- `WritePrivateFile`: the directory after it, and whether it succeeded. -/
def write (store : EditStore) (name content : Bytes) (fault : Option WriteFault) :
    EditStore × Bool :=
  match fault with
  | none => (store.set name content, true)
  | some fault => (if fault.replaced then store.set name content else store, false)

end EditStore

/-! ### The journal -/

/-- Past either cap a change is still listed, as not undoable. -/
def kUndoFileBytes : Nat := 2 * 1024 * 1024

/-- `kUndoSessionBytes` -/
def kUndoSessionBytes : Nat := 64 * 1024 * 1024

/-- `kSummaryFiles` -/
def kSummaryFiles : Nat := 50

/-- `FileEffect`: a file a call changed, with its bytes before the call, unset
when it did not exist or they were not kept, and a hash of what it holds now,
empty once deleted. -/
structure FileEffect where
  path : Bytes
  existed : Bool := false
  before : Option Bytes := none
  afterHash : Bytes
  beforeMode : Option Nat := none

/-- `EditJournal::Entry` -/
structure EditEntry where
  path : Bytes
  afterHash : Bytes
  existed : Bool := false
  undoable : Bool := false
  beforeMode : Option Nat := none
  deriving DecidableEq

/-- `EditJournal` -/
structure EditJournal where
  directory : Bytes := []
  turns : List (Int × List EditEntry) := []
  storedBytes : Nat := 0

namespace EditJournal

def entriesOf (journal : EditJournal) (turn : Int) : List EditEntry :=
  (Assoc.lookup turn journal.turns).getD []

/-- `LastTurn`: the most recent turn that changed a file, 0 when none. -/
def lastTurn (journal : EditJournal) : Int := (journal.turns.getLast?.map Prod.fst).getD 0

/-- The name of `Blob` in the journal's directory. -/
def blobName (turn : Int) (path : Bytes) : Bytes :=
  Json.decimalInt turn ++ lit "-" ++ hashHex path

/-- A later change of a file the turn has changed: only the hash is new. -/
def setAfterHash (path afterHash : Bytes) : List EditEntry → List EditEntry
  | [] => []
  | entry :: entries =>
    if entry.path = path then { entry with afterHash } :: entries
    else entry :: setAfterHash path afterHash entries

/-- A change that may be undone, whatever has been kept so far. -/
def Eligible (effect : FileEffect) : Prop :=
  (effect.existed = false ∨ effect.before.isSome) ∧
    (effect.before.getD []).length ≤ kUndoFileBytes

instance (effect : FileEffect) : Decidable (Eligible effect) := inferInstanceAs (Decidable (_ ∧ _))

/-- The entry of a file's first change in a turn, before its blob is written. -/
def newEntry (storedBytes : Nat) (effect : FileEffect) : EditEntry where
  path := effect.path
  afterHash := effect.afterHash
  existed := effect.existed
  undoable := decide (Eligible effect ∧
    storedBytes + (effect.before.getD []).length ≤ kUndoSessionBytes)
  beforeMode := effect.beforeMode

/-- An index row of `Save`. -/
def entryJson (entry : EditEntry) : Json :=
  let row := Json.ofFields
    [(lit "path", .str entry.path), (lit "after_hash", .str entry.afterHash),
     (lit "existed", .bool entry.existed), (lit "undoable", .bool entry.undoable)]
  match entry.beforeMode with
  | some mode => row.set (lit "before_mode") (.uint (UInt64.ofNat mode))
  | none => row

/-- The index `Save` writes. -/
def indexJson (turns : List (Int × List EditEntry)) : Json :=
  .obj [(lit "turns",
    Json.ofFields (turns.map fun e => (Json.decimalInt e.1, .arr (e.2.map entryJson))))]

/-- An entry as `Open` reads it. -/
def entryOf (row : Json) : EditEntry :=
  let mode := jsonValueInteger (-2 ^ 31) (2 ^ 31 - 1) row (lit "before_mode") (-1)
  { path := jsonValueStr row (lit "path") []
    afterHash := jsonValueStr row (lit "after_hash") []
    existed := jsonValueBool row (lit "existed") false
    undoable := jsonValueBool row (lit "undoable") false
    beforeMode := if 0 ≤ mode ∧ mode ≤ 0o7777 then some mode.toNat else none }

/-- `items()`; the one item of a number or a text has an empty key, which is
no turn. -/
def jsonItems : Json → List (Bytes × Json)
  | .obj fields => fields
  | .arr items => items.mapIdx fun i item => (Json.decimal i, item)
  | _ => []

/-- The turns `Open` loads from an index. -/
def indexTurns (index : Json) : List (Int × List EditEntry) :=
  (jsonItems (jsonValue index (lit "turns") (.obj []))).foldl (fun turns item =>
    match parseInt64 item.1, item.2 with
    | some number, .arr rows =>
      rows.foldl (fun turns row =>
        Assoc.insert number ((Assoc.lookup number turns).getD [] ++ [entryOf row]) turns) turns
    | _, _ => turns) []

/-- The name of the index in the journal's directory. -/
def indexName : Bytes := lit "index.json"

/-- A stored diff lives in the directory too, outside the undo budget. -/
def isDiff (name : Bytes) : Bool := (lit "diff-").isPrefixOf name

/-- The bytes `Open` counts: all files but the stored diffs. -/
def listedBytes (store : EditStore) : Nat :=
  Assoc.weight (fun name => !isDiff name) List.length store.files

end EditJournal

/-! ### The operations -/

/-- The journal, the files it is about and the files of its directory. -/
structure EditState where
  journal : EditJournal := {}
  files : Bytes → DiskNode := fun _ => .absent
  store : EditStore := .empty

/-- What fails in one operation, by the path of the file. -/
structure EditIo where
  /-- reading the file -/
  read : Bytes → Option Cause := fun _ => none
  /-- reading its blob -/
  blob : Bytes → Option Cause := fun _ => none
  /-- removing the file -/
  remove : Bytes → Option Cause := fun _ => none
  /-- writing the file -/
  write : Bytes → Option WriteFault := fun _ => none
  /-- removing its blob -/
  discard : Bytes → Option Cause := fun _ => none
  /-- writing the index -/
  index : Option WriteFault := none

/-- One file of a turn summary. -/
structure EditSummary where
  path : Bytes
  added : Nat
  removed : Nat
  undoable : Bool
  deriving DecidableEq

/-- The answer of `Revert`: what was put back, and what was not and why. -/
structure Reverted where
  restored : List Bytes := []
  conflicts : List (Bytes × Bytes) := []

/-- `DiffLines`: the lines of a text, a closing carriage return dropped. -/
def diffLines (text : Bytes) : List Bytes :=
  (fileLines text).map fun line => if line.getLast? = some 0x0d then line.dropLast else line

/-- `CommonLineSpan`: the lines before `start` and from the ends on are the
same in both texts. -/
structure CommonLineSpan where
  start : Nat
  oldEnd : Nat
  newEnd : Nat

/-- `TrimCommonLines` -/
def trimCommonLines (oldLines newLines : List Bytes) : CommonLineSpan :=
  let common (a b : List Bytes) := ((a.zip b).takeWhile fun pair => pair.1 = pair.2).length
  let start := common oldLines newLines
  let closing := common (oldLines.drop start).reverse (newLines.drop start).reverse
  { start, oldEnd := oldLines.length - closing, newEnd := newLines.length - closing }

namespace EditState

open EditJournal

variable (displayPath : Bytes → Bytes)

/-- `Holds`: whether a path still names what a turn left. -/
def holds (editFileBytes : Nat) (io : EditIo) (files : Bytes → DiskNode) (path hash : Bytes) :
    Bool :=
  if hash = [] then files path = .absent
  else
    match readRegularFile (files path) editFileBytes (io.read path) with
    | .ok content => hashHex content = hash
    | .error _ => false

/-- `Save` -/
def save [DoubleText] (s : EditState) (fault : Option WriteFault) : EditState :=
  { s with
    store := (s.store.write indexName (Json.dump (indexJson s.journal.turns)) fault).1 }

/-- `Open`; `parse` reads a JSON text. -/
def openJournal (parse : Bytes → Option Json) (editFileBytes : Nat) (fault : Option Cause)
    (s : EditState) (directory : Bytes) : EditState :=
  match readRegularFile (s.store.node indexName) editFileBytes fault with
  | .error _ => { s with journal := { directory } }
  | .ok text =>
    { s with
      journal :=
        { directory
          turns := indexTurns ((parse text).getD .null)
          storedBytes := listedBytes s.store } }

/-- `Record`; `fault` is of the blob it writes. -/
def record (s : EditState) (turn : Int) (effect : FileEffect) (fault : Option WriteFault) :
    EditState :=
  let journal := s.journal
  let entries := journal.entriesOf turn
  if journal.directory = [] then s
  else if entries.any fun entry => entry.path = effect.path then
    { s with
      journal :=
        { journal with
          turns :=
            Assoc.insert turn (setAfterHash effect.path effect.afterHash entries) journal.turns } }
  else
    let before := effect.before.getD []
    let entry := newEntry journal.storedBytes effect
    if entry.undoable ∧ entry.existed then
      let (store, written) := s.store.write (blobName turn effect.path) before fault
      { s with
        store
        journal :=
          { journal with
            turns :=
              Assoc.insert turn (entries ++ [{ entry with undoable := written }]) journal.turns
            storedBytes := journal.storedBytes + if written then before.length else 0 } }
    else
      { s with
        journal :=
          { journal with turns := Assoc.insert turn (entries ++ [entry]) journal.turns } }

/-- One file of the summary `Files` makes. -/
def summary (editFileBytes : Nat) (io : EditIo) (s : EditState) (turn : Int) (entry : EditEntry) :
    EditSummary :=
  let before :=
    if entry.undoable ∧ entry.existed then
      (readRegularFile (s.store.node (blobName turn entry.path)) kUndoFileBytes
        (io.blob entry.path)).toOption.getD []
    else []
  let after :=
    if entry.afterHash = [] then []
    else
      (readRegularFile (s.files entry.path) editFileBytes (io.read entry.path)).toOption.getD []
  let span := trimCommonLines (diffLines before) (diffLines after)
  { path := displayPath entry.path
    added := span.newEnd - span.start
    removed := span.oldEnd - span.start
    undoable := entry.undoable }

/-- `Files`: the turn's summary, without files that came and went; it saves
the index. -/
def filesOf [DoubleText] (editFileBytes : Nat) (io : EditIo) (s : EditState) (turn : Int) :
    List EditSummary × EditState :=
  match Assoc.lookup turn s.journal.turns with
  | none => ([], s)
  | some entries =>
    let s := s.save io.index
    (((entries.filter fun entry => entry.existed ∨ entry.afterHash ≠ []).take kSummaryFiles).map
      (s.summary displayPath editFileBytes io turn), s)

/-- The files after one entry has been put back, or why it was not. -/
def putBack (editFileBytes : Nat) (io : EditIo) (s : EditState) (turn : Int) (entry : EditEntry) :
    (Bytes → DiskNode) × Option Bytes :=
  if entry.undoable = false then (s.files, some (lit "not kept (binary or too large)"))
  else if holds editFileBytes io s.files entry.path entry.afterHash = false then
    (s.files, some (lit "changed since"))
  else if entry.existed = false then
    match io.remove entry.path with
    | some cause => (s.files, some cause.text)
    | none => (Function.update s.files entry.path .absent, none)
  else
    match readRegularFile (s.store.node (blobName turn entry.path)) kUndoFileBytes
      (io.blob entry.path) with
    | .error error => (s.files, some (toolFailure error))
    | .ok before =>
      let written := atomicWriteFile entry.path before (entry.beforeMode.getD kPrivateFileMode) true
        (s.files entry.path) (io.write entry.path)
      (Function.update s.files entry.path written.1, written.2.map toolFailure)

/-- Whether `Revert` of `path` is about an entry. -/
def picks (path : Bytes) (entry : EditEntry) : Bool :=
  path = [] || path = displayPath entry.path || path = entry.path

/-- The `erase_if` of `Revert`: the entries that stay, the answer and the
state, the journal's turns being as they were. -/
def revertEntries (editFileBytes : Nat) (io : EditIo) (turn : Int) (path : Bytes) :
    List EditEntry → EditState → List EditEntry × Reverted × EditState
  | [], s => ([], {}, s)
  | entry :: entries, s =>
    if picks displayPath path entry = false then
      let (kept, result, s) := revertEntries editFileBytes io turn path entries s
      (entry :: kept, result, s)
    else
      match putBack editFileBytes io s turn entry with
      | (files, some reason) =>
        let (kept, result, s) :=
          revertEntries editFileBytes io turn path entries { s with files }
        (entry :: kept,
          { result with conflicts := (displayPath entry.path, reason) :: result.conflicts }, s)
      | (files, none) =>
        let store :=
          if (io.discard entry.path).isSome then s.store
          else s.store.remove (blobName turn entry.path)
        let (kept, result, s) :=
          revertEntries editFileBytes io turn path entries { s with files, store }
        (kept, { result with restored := displayPath entry.path :: result.restored }, s)

/-- The state once an entry has been looked at. -/
def settled (editFileBytes : Nat) (io : EditIo) (turn : Int) (path : Bytes) (s : EditState)
    (entry : EditEntry) : EditState :=
  if picks displayPath path entry = false then s
  else
    let back := putBack editFileBytes io s turn entry
    { s with
      files := back.1
      store :=
        if back.2.isSome ∨ (io.discard entry.path).isSome then s.store
        else s.store.remove (blobName turn entry.path) }

/-- Why an entry stays; an entry that `Revert` is not about stays for no
reason. -/
def reasonOf (editFileBytes : Nat) (io : EditIo) (turn : Int) (path : Bytes) (s : EditState)
    (entry : EditEntry) : Option Bytes :=
  if picks displayPath path entry = false then none
  else (putBack editFileBytes io s turn entry).2

section Loop

variable {displayPath} {editFileBytes : Nat} {io : EditIo} {turn : Int} {path : Bytes}
  (entry : EditEntry) (entries : List EditEntry) (s : EditState)

@[simp] theorem settled_journal :
    (settled displayPath editFileBytes io turn path s entry).journal = s.journal := by
  rw [settled]
  split_ifs <;> rfl

theorem settled_files :
    (settled displayPath editFileBytes io turn path s entry).files =
      if picks displayPath path entry = false then s.files
      else (putBack editFileBytes io s turn entry).1 := by
  rw [settled]
  split_ifs <;> rfl

theorem settled_store :
    (settled displayPath editFileBytes io turn path s entry).store =
      if picks displayPath path entry = false ∨ (putBack editFileBytes io s turn entry).2.isSome ∨
          (io.discard entry.path).isSome then s.store
      else s.store.remove (blobName turn entry.path) := by
  rw [settled]
  split_ifs with hpicks hstays hstays
  · rfl
  · exact absurd (.inl hpicks) hstays
  · exact if_pos (hstays.resolve_left hpicks)
  · exact if_neg fun h => hstays (.inr h)

@[simp] theorem revertEntries_nil :
    revertEntries displayPath editFileBytes io turn path [] s = ([], {}, s) := rfl

theorem revertEntries_cons_state :
    (revertEntries displayPath editFileBytes io turn path (entry :: entries) s).2.2 =
      (revertEntries displayPath editFileBytes io turn path entries
        (settled displayPath editFileBytes io turn path s entry)).2.2 := by
  cases hpicks : picks displayPath path entry with
  | false => simp [revertEntries, settled, hpicks]
  | true =>
    rcases hback : putBack editFileBytes io s turn entry with ⟨files, - | reason⟩
    · simp [revertEntries, settled, hpicks, hback]
    · simp [revertEntries, settled, hpicks, hback]

theorem revertEntries_cons_kept :
    (revertEntries displayPath editFileBytes io turn path (entry :: entries) s).1 =
      (if picks displayPath path entry = false ∨
          (reasonOf displayPath editFileBytes io turn path s entry).isSome then [entry] else []) ++
        (revertEntries displayPath editFileBytes io turn path entries
          (settled displayPath editFileBytes io turn path s entry)).1 := by
  cases hpicks : picks displayPath path entry with
  | false => simp [revertEntries, settled, reasonOf, hpicks]
  | true =>
    rcases hback : putBack editFileBytes io s turn entry with ⟨files, - | reason⟩
    · simp [revertEntries, settled, reasonOf, hpicks, hback]
    · simp [revertEntries, settled, reasonOf, hpicks, hback]

theorem revertEntries_cons_conflicts :
    (revertEntries displayPath editFileBytes io turn path (entry :: entries) s).2.1.conflicts =
      ((reasonOf displayPath editFileBytes io turn path s entry).map
          fun reason => (displayPath entry.path, reason)).toList ++
        (revertEntries displayPath editFileBytes io turn path entries
          (settled displayPath editFileBytes io turn path s entry)).2.1.conflicts := by
  cases hpicks : picks displayPath path entry with
  | false => simp [revertEntries, settled, reasonOf, hpicks]
  | true =>
    rcases hback : putBack editFileBytes io s turn entry with ⟨files, - | reason⟩
    · simp [revertEntries, settled, reasonOf, hpicks, hback]
    · simp [revertEntries, settled, reasonOf, hpicks, hback]

end Loop

/-- `Revert`: puts `turn`'s files, or only `path`, back. -/
def revert [DoubleText] (editFileBytes : Nat) (io : EditIo) (s : EditState) (turn : Int)
    (path : Bytes) : Reverted × EditState :=
  match Assoc.lookup turn s.journal.turns with
  | none => ({}, s)
  | some entries =>
    let (kept, result, s) := revertEntries displayPath editFileBytes io turn path entries s
    let turns :=
      if kept = [] then Assoc.erase turn s.journal.turns
      else Assoc.insert turn kept s.journal.turns
    (result, { s with journal := { s.journal with turns } }.save io.index)

end EditState

end UAgent
