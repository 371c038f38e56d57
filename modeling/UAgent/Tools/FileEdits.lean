/-
UAgent/Tools/FileEdits.lean

The `edit_file` tool (`ToolEditFile`, src/tools/files.cc) and the preview a
person approves it by (src/tools/registry_files.cc).  Both put the edits
through `ApplyEdits`, on the bytes of the file.

What the file system does is a parameter of a call (`EditSite`): the file, what
the path checks and `file_size` say of it, and where writing it stops.
-/
import UAgent.Base.Occurrences
import UAgent.Agent.EditJournal

namespace UAgent

open Bytes

/-! ### The text an edit looks for -/

/-- `FileEdit` -/
structure FileEdit where
  oldText : Bytes
  newText : Bytes
  replaceAll : Bool := false
deriving DecidableEq

/-- What follows the "   123\t" of a line from a numbering reader. -/
def numberedBody (line : Bytes) : Option Bytes :=
  let rest := line.dropWhile fun c => c = 0x20 || c = 0x09
  let digits := rest.takeWhile isDigit
  match rest.drop digits.length with
  | c :: body => if digits ≠ [] ∧ c = 0x09 then some body else none
  | [] => none

/-- A line without its number, and whether it had one; a line that is not
blank must have one. -/
def stripLine (line : Bytes) : Option (Bytes × Bool) :=
  match numberedBody line with
  | some body => some (body, true)
  | none => if trim line ≠ [] then none else some (line, false)

/-- `StripLineNumbers` -/
def stripLineNumbers (s : Bytes) : Bytes :=
  match (fileLines s).mapM stripLine with
  | none => s
  | some bodies =>
    if bodies.any Prod.snd then
      joinWith [0x0a] (bodies.map Prod.fst) ++ if s.getLast? = some 0x0a then [0x0a] else []
    else s

/-- `Occurrences` -/
structure Occurrences where
  count : Nat := 0
  first : Option Nat := none
deriving DecidableEq

/-- `CountOccurrences`: each search starts behind the occurrence before. -/
def countOccurrences (hay needle : Bytes) : Occurrences :=
  if needle = [] then {}
  else { count := scan needle (· + 1) (fun _ count => count) 0 0 hay, first := find needle hay }

/-- `MostlyCrLf` -/
def mostlyCrLf (text : Bytes) : Bool :=
  let newlines := text.count 0x0a
  newlines ≠ 0 && newlines ≤ (countOccurrences text [0x0d, 0x0a]).count * 2

/-- Whether a carriage return stands before a position. -/
def returnBefore (data : Bytes) (newline : Nat) : Bool :=
  0 < newline && data[newline - 1]? = some 0x0d

/-- `data.find('\n', start)` -/
def newlineFrom (data : Bytes) (start : Nat) : Option Nat :=
  (find [0x0a] (data.drop start)).map (· + start)

/-- The last newline before a position. -/
def newlineBefore (data : Bytes) (stop : Nat) : Option Nat := rfind [0x0a] (data.take stop)

/-- `CrLfAtMatch`: the line ending within the match, else behind it, else
before it. -/
def crLfAtMatch (data : Bytes) (start length : Nat) (fallback : Bool) : Bool :=
  let stop := min data.length (start + length)
  match (newlineFrom data start).filter (· < stop) with
  | some newline => returnBefore data newline
  | none =>
    match newlineFrom data stop with
    | some newline => returnBefore data newline
    | none => ((newlineBefore data start).map (returnBefore data)).getD fallback

/-- The loop of `FileLineEnding`, `before` being the character before. -/
def lineEndingFrom (crlf normalize : Bool) : Option UInt8 → Bytes → Bytes
  | _, [] => []
  | before, [c] => if c = 0x0a ∧ crlf ∧ before ≠ some 0x0d then [0x0d, c] else [c]
  | before, c :: d :: s =>
    if c = 0x0d ∧ d = 0x0a ∧ normalize then
      (if crlf then [0x0d, 0x0a] else [0x0a]) ++ lineEndingFrom crlf normalize (some 0x0a) s
    else
      (if c = 0x0a ∧ crlf ∧ before ≠ some 0x0d then [0x0d, c] else [c]) ++
        lineEndingFrom crlf normalize (some c) (d :: s)

/-- `FileLineEnding` -/
def fileLineEnding (text : Bytes) (crlf normalizeCrlf : Bool) : Bytes :=
  lineEndingFrom crlf normalizeCrlf none text

/-- `ResolvedEdit` -/
structure ResolvedEdit where
  oldText : Bytes
  found : Occurrences
  normalizedOld : Bool := false
deriving DecidableEq

/-- A text tried in place of one that was not found. -/
def ResolvedEdit.orElse (data : Bytes) (resolved : ResolvedEdit) (oldText : Bytes)
    (normalized : Bool) : ResolvedEdit :=
  if resolved.found.count = 0 ∧ oldText ≠ resolved.oldText then
    let found := countOccurrences data oldText
    { oldText, found, normalizedOld := normalized && found.count ≠ 0 }
  else resolved

/-- `ResolveEditText`: the text itself, without line numbers, or with the line
endings of the file. -/
def resolveEditText (data : Bytes) (edit : FileEdit) (fileCrlf : Bool) : ResolvedEdit :=
  let exact : ResolvedEdit :=
    { oldText := edit.oldText, found := countOccurrences data edit.oldText }
  let stripped := exact.orElse data (stripLineNumbers edit.oldText) false
  stripped.orElse data (fileLineEnding stripped.oldText fileCrlf true) true

/-! ### What a run shows and reports -/

/-- `EditDisplay` -/
structure EditDisplay where
  body : Bytes := []
  added : Nat := 0
  removed : Nat := 0
deriving DecidableEq

/-- `ForEachDiffLine`, as `AppendLineDiff` uses it: a line of context on either
side of what was removed and added. -/
def lineDiff (oldLines newLines : List Bytes) (span : CommonLineSpan) : Bytes :=
  let marked (marker : UInt8) (lines : List Bytes) := unlines (lines.map (marker :: ·))
  marked (ch ' ') ((oldLines.take span.start).getLast?.toList) ++
    marked (ch '-') ((oldLines.take span.oldEnd).drop span.start) ++
    marked (ch '+') ((newLines.take span.newEnd).drop span.start) ++
    marked (ch ' ') ((oldLines.drop span.oldEnd).head?.toList)

/-- Where the line before the one of a match starts. -/
def blockStart (data : Bytes) (start : Nat) : Nat :=
  -- a match at the very start has no line before it
  let lineStart := if start = 0 then 1 else ((newlineBefore data start).map (· + 1)).getD 0
  if 1 < lineStart then ((newlineBefore data (lineStart - 1)).map (· + 1)).getD 0 else 0

/-- Where the line behind the one a match ends on ends. -/
def blockEnd (data : Bytes) (stop : Nat) : Nat :=
  ((newlineFrom data stop).bind fun newline => newlineFrom data (newline + 1)).getD data.length

/-- `data.replace(start, old.size(), new)` -/
def replaceAt (data : Bytes) (start : Nat) (old new : Bytes) : Bytes :=
  data.take start ++ (new ++ data.drop (start + old.length))

/-- `AppendEditDisplay` -/
def appendEditDisplay (display : EditDisplay) (data : Bytes) (start : Nat) (old new : Bytes)
    (applied : Nat) : EditDisplay :=
  let first := blockStart data start
  let before := (data.take (blockEnd data (start + old.length))).drop first
  let after := replaceAt before (start - first) old new
  let oldLines := diffLines before
  let newLines := diffLines after
  let span := trimCommonLines oldLines newLines
  let line := 1 + (data.take start).count 0x0a
  { body :=
      display.body ++ lit "@line " ++ Json.decimal line ++
        (if 1 < applied then lit " · " ++ Json.decimal applied ++ lit " matches" else []) ++
        lit "\n" ++ lineDiff oldLines newLines span
    added := display.added + (span.newEnd - span.start) * applied
    removed := display.removed + (span.oldEnd - span.start) * applied }

/-- `WholeFileDiff`: an empty body when no line differs. -/
def wholeFileDiff (previous content : Bytes) : EditDisplay :=
  let oldLines := diffLines previous
  let newLines := diffLines content
  let span := trimCommonLines oldLines newLines
  if span.oldEnd = span.start ∧ span.newEnd = span.start then {}
  else
    { body := lineDiff oldLines newLines span
      added := span.newEnd - span.start
      removed := span.oldEnd - span.start }

/-- The codes of `ToolErrorCode` that the file tools give. -/
inductive FileErrorCode where
  | invalidArguments
  | permissionDenied
  | notFound
  | limitExceeded
  | internal
deriving DecidableEq

/-- The fields of `ToolResult` that the file tools fill. -/
structure FileResult where
  output : Bytes
  error : Option FileErrorCode := none
  noChange : Bool := false
  diff : Bytes := []
  added : Option Nat := none
  removed : Option Nat := none
  effect : Option FileEffect := none
  recoveryKey : Bytes := []

/-- `ToolResult::Ok` -/
def FileResult.Ok (result : FileResult) : Prop := result.error = none

instance (result : FileResult) : Decidable result.Ok := by unfold FileResult.Ok; infer_instance

/-- `ToolFailure` -/
def fileFailure (code : FileErrorCode) (output : Bytes) : FileResult :=
  { output := toolFailure output, error := some code }

/-- `Plural` of the nouns used here, which take an "s". -/
def pluralS (count : Nat) (noun : Bytes) : Bytes :=
  Json.decimal count ++ lit " " ++ noun ++ if count = 1 then [] else lit "s"

/-- Where a line starts. -/
def lineStart (data : Bytes) (position : Nat) : Nat :=
  ((newlineBefore data position).map (· + 1)).getD 0

/-- The first line of a text that is found in a file; short lines say nothing. -/
def hintMatch (data oldText : Bytes) : Nat :=
  ((fileLines oldText).findSome? fun line =>
    let line := if line.getLast? = some 0x0d then line.dropLast else line
    if (trim line).length < 4 then none else find line data).getD 0

/-- `EditRecoveryHint`: some lines of the file, numbered. -/
def editRecoveryHint (data oldText : Bytes) : Bytes :=
  -- two lines before the one that matches; from the first line there is none
  let start := lineStart data (lineStart data (lineStart data (hintMatch data oldText) - 1) - 1)
  let number := 1 + (data.take start).count 0x0a
  lit "; current file context (revision " ++ hashHex data ++ lit "):\n" ++
    ((fileLines (data.drop start)).take 5).zipIdx.flatMap fun line =>
      Json.decimal (number + line.2) ++ lit ": " ++ utf8Prefix line.1 220 ++ lit "\n"

/-! ### The edits -/

/-- `EditedSize`: the size after replacing, unless it exceeds the limit; sizes
are computed as a `size_t`. -/
def editedSize (editFileBytes current oldSize newSize count : Nat) : Option Nat :=
  if oldSize ≤ newSize then
    let growth := newSize - oldSize
    if growth ≠ 0 ∧ (2 ^ 64 - 1 - current) / growth < count then none
    else
      let next := (current + growth * count % 2 ^ 64) % 2 ^ 64
      if next ≤ editFileBytes then some next else none
  else
    let next := (current + (2 ^ 64 - (oldSize - newSize) * count % 2 ^ 64)) % 2 ^ 64
    if next ≤ editFileBytes then some next else none

/-- `ReplaceAllOccurrences`: what stands between the occurrences is copied. -/
def replaceAllOccurrences (data old new : Bytes) : Bytes :=
  scan old (new ++ ·) List.cons [] 0 data

/-- `EditRun` -/
structure EditRun where
  display : EditDisplay := {}
  replacements : Nat := 0
  alreadyApplied : Nat := 0
deriving DecidableEq

/-- What an edit in a file is about: the limit, the path as it was given and
as `CanonicalAccessPath` has it. -/
structure EditTarget where
  editFileBytes : Nat
  path : Bytes
  canonicalPath : Bytes

/-- The text an edit puts in, with the line endings of its place. -/
def effectiveNew (data : Bytes) (edit : FileEdit) : Bytes :=
  let fileCrlf := mostlyCrLf data
  let resolved := resolveEditText data edit fileCrlf
  let crlf :=
    if resolved.found.count = 1 then
      crLfAtMatch data (resolved.found.first.getD 0) resolved.oldText.length fileCrlf
    else fileCrlf
  fileLineEnding edit.newText crlf resolved.normalizedOld

/-- The text of an edit that is not found is there already as what the edit
would make of it. -/
def alreadyThere (data : Bytes) (edit : FileEdit) : Bool :=
  edit.newText ≠ [] &&
    ((find edit.newText data).isSome ||
      (find (fileLineEnding edit.newText (mostlyCrLf data) true) data).isSome)

/-- One round of the loop of `ApplyEdits`, for the edit at `index` (from 0). -/
def applyEdit (target : EditTarget) (original : Bytes) (index : Nat) (edit : FileEdit)
    (data : Bytes) (run : EditRun) : Except FileResult (Bytes × EditRun) :=
  let named := lit "edit " ++ Json.decimal (index + 1)
  let resolved := resolveEditText data edit (mostlyCrLf data)
  let old := resolved.oldText
  let count := resolved.found.count
  let start := resolved.found.first.getD 0
  let new := effectiveNew data edit
  let applied := if edit.replaceAll then count else 1
  if edit.oldText = [] then
    .error (fileFailure .invalidArguments (named ++ lit " has an empty `old` value"))
  else if count = 0 then
    if alreadyThere data edit then .ok (data, { run with alreadyApplied := run.alreadyApplied + 1 })
    else
      .error
        { fileFailure .notFound (named ++ lit " `old` not found in " ++ target.path ++
            lit "; applied=false (no edits in this batch were written)" ++
            editRecoveryHint original old) with
          recoveryKey :=
            hashHex (lit "edit_file\n" ++ target.canonicalPath ++ lit "\n" ++ hashHex original ++
              lit "\n" ++ old) }
  else if edit.replaceAll = false ∧ 1 < count then
    .error (fileFailure .invalidArguments (named ++ lit " `old` matches " ++ Json.decimal count ++
      lit " times in " ++ target.path ++ lit "; add surrounding context or set `replace_all`"))
  else if old = new then .ok (data, { run with alreadyApplied := run.alreadyApplied + 1 })
  else
    match editedSize target.editFileBytes data.length old.length new.length applied with
    | none =>
      .error (fileFailure .limitExceeded (named ++ lit " would exceed the edit byte limit"))
    | some _ =>
      .ok (if edit.replaceAll then replaceAllOccurrences data old new
          else replaceAt data start old new,
        { run with
          display := appendEditDisplay run.display data start old new applied
          replacements := run.replacements + applied })

/-- The loop of `ApplyEdits`. -/
def applyEditsFrom (target : EditTarget) (original : Bytes) :
    Nat → List FileEdit → Bytes → EditRun → Except FileResult (Bytes × EditRun)
  | _, [], data, run => .ok (data, run)
  | index, edit :: edits, data, run =>
    match applyEdit target original index edit data run with
    | .error refusal => .error refusal
    | .ok (data, run) => applyEditsFrom target original (index + 1) edits data run

/-- `ApplyEdits`: the text after all edits, or the refusal of one. -/
def applyEdits (target : EditTarget) (data : Bytes) (edits : List FileEdit) :
    Except FileResult (Bytes × EditRun) :=
  if edits = [] then .error (fileFailure .invalidArguments (lit "at least one edit is required"))
  else applyEditsFrom target data 0 edits data {}

/-! ### The tool and its preview -/

/-- The file a call edits, and what the system says about it. -/
structure EditSite where
  content : Bytes
  mode : Nat
  /-- the refusal of `ValidatePathTarget`, to read -/
  unreadable : Option FileResult := none
  /-- the failure to open it, and its code -/
  unopened : Option FileErrorCode := none
  /-- `file_size`, when it says one; the file may grow after it -/
  size : Option Nat
  /-- `FilePermissions` -/
  permissions : Option Nat
  /-- the refusal of `ValidatePathTarget`, to write -/
  unwritable : Option FileResult := none
  /-- where writing stops -/
  fault : Option WriteFault := none
  /-- `AttachmentMime` of the name -/
  mime : Bytes := lit "application/octet-stream"
  /-- `DisplayPath` -/
  displayPath : Bytes

/-- `kSharedFileMode` -/
def kSharedFileMode : Nat := 0o644

/-- `ToolWriteFile` over the file; what it reports on success is not used. -/
def toolWriteFile (site : EditSite) (path content : Bytes) : DiskNode × Option FileResult :=
  match site.unwritable with
  | some refusal => (.regular site.content site.mode, some refusal)
  | none =>
    let written := atomicWriteFile path content kSharedFileMode true
      (.regular site.content site.mode) site.fault
    (written.1, written.2.map (fileFailure .internal))

/-- What `ToolEditFile` reads, or why it does not edit. -/
def readForEdit (target : EditTarget) (site : EditSite) : Except FileResult Bytes :=
  match site.unreadable with
  | some refusal => .error refusal
  | none =>
    match site.unopened with
    | some code => .error (fileFailure code (lit "cannot open " ++ target.path))
    | none =>
      match site.size.filter (target.editFileBytes < ·) with
      | some bytes =>
        .error (fileFailure .limitExceeded (target.path ++
          lit " is too large to edit atomically (" ++ Json.decimal bytes ++ lit " bytes; limit " ++
          Json.decimal target.editFileBytes ++ lit ")"))
      | none =>
        if target.editFileBytes < site.content.length then
          .error (fileFailure .limitExceeded
            (target.path ++ lit " grew beyond the edit limit while reading"))
        else .ok site.content

/-- `ToolEditFile`: what the path names afterwards, and the result. -/
def toolEditFile (target : EditTarget) (site : EditSite) (edits : List FileEdit) :
    DiskNode × FileResult :=
  let kept := DiskNode.regular site.content site.mode
  match readForEdit target site with
  | .error refusal => (kept, refusal)
  | .ok original =>
    match applyEdits target original edits with
    | .error refusal => (kept, refusal)
    | .ok (data, run) =>
      if run.replacements = 0 then
        (kept,
          { output := lit "already applied " ++ target.path ++ lit " (" ++
              pluralS run.alreadyApplied (lit "edit") ++ lit ")"
            noChange := true })
      else
        match toolWriteFile site target.path data with
        | (node, some failure) => (node, failure)
        | (node, none) =>
          (node,
            { output := lit "edited " ++ target.path ++ lit " (" ++
                pluralS run.replacements (lit "replacement") ++ lit " across " ++
                pluralS edits.length (lit "edit") ++ lit "; " ++ Json.decimal original.length ++
                lit " -> " ++ Json.decimal data.length ++ lit " bytes)"
              diff := run.display.body
              added := some run.display.added
              removed := some run.display.removed
              effect := some
                { path := target.canonicalPath
                  existed := true
                  before := some original
                  afterHash := hashHex data
                  beforeMode := site.permissions } })

/-- `LikelyTextSample`: no control bytes but white space. -/
def likelyTextSample (sample : Bytes) : Bool :=
  sample.all fun c => ¬(c < 0x09 ∨ (0x0d < c ∧ c < 0x20))

/-- `LikelyTextFile` of a file that can be opened: by its name and its first
block. -/
def likelyTextFile (mime content : Bytes) : Bool :=
  !((lit "image/").isPrefixOf mime ||
      ((lit "application/").isPrefixOf mime && mime ≠ lit "application/octet-stream" &&
        mime ≠ lit "application/json" && mime ≠ lit "application/xml")) &&
    likelyTextSample (content.take 4096)

/-- `DiffableContents` -/
def diffableContents (editFileBytes : Nat) (site : EditSite) : Option Bytes :=
  match site.size with
  | some bytes =>
    if bytes ≤ editFileBytes ∧ site.unopened = none ∧ likelyTextFile site.mime site.content then
      some (utf8Prefix site.content editFileBytes)
    else none
  | none => none

/-- `DiffReceipt` -/
def diffReceipt (verb displayPath : Bytes) (display : EditDisplay) : Bytes :=
  verb ++ lit " " ++ displayPath ++ lit " (+" ++ Json.decimal display.added ++ lit " -" ++
    Json.decimal display.removed ++ lit ")\n" ++ display.body

/-- `WholeFileDiffDisplay`: nothing when no line differs. -/
def wholeFileDiffDisplay (displayPath previous content : Bytes) (existed : Bool) : Bytes :=
  let display := wholeFileDiff previous content
  if display.body = [] then []
  else diffReceipt (if existed then lit "Replaced" else lit "Created") displayPath display

/-- The `approval_preview` of `edit_file`. -/
def editPreview (target : EditTarget) (site : EditSite) (edits : List FileEdit) : Bytes :=
  match diffableContents target.editFileBytes site with
  | none => lit "edit " ++ site.displayPath
  | some previous =>
    match applyEdits target previous edits with
    | .error refusal => refusal.output
    | .ok (data, _) =>
      let diff := wholeFileDiffDisplay site.displayPath previous data true
      if diff = [] then lit "no effective changes" else diff

end UAgent
