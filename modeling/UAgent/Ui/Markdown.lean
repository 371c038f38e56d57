/-
UAgent/Ui/Markdown.lean

The streaming Markdown renderer (src/ui/markdown.cc, the spans of
src/ui/markdown_math.cc): it reads one byte after another and writes what it
can, holding what the next bytes may still change.

A mathematical span is held until it closes.  One that does not close was no
mathematics after all, and what was held is read again as plain text
(`replayMath`).

What is written is kept as text and styles, so that the text can be told from
the escape sequences around it.  Display widths, the transliteration of
mathematics and the layout of tables are parameters; of a table the stream
itself only collects the rows.
-/
import UAgent.Base.JsonText
import UAgent.Core.Strings

namespace UAgent

open Bytes

def kMdLineBytes : Nat := 1024 * 1024
def kMdMathBytes : Nat := 64 * 1024
def kMdTableRows : Nat := 2000

/-- `MarkdownEscapable` -/
def markdownEscapable (c : UInt8) : Bool := c ∈ lit "\\`*_$\x7b\x7d[]()#+-.!|>$"

/-- `IsMarkdownFence` -/
def isMarkdownFence (marker : Bytes) : Bool :=
  3 ≤ marker.length && (marker.head? = some (ch '`') || marker.head? = some (ch '~')) &&
    marker.all (some · = marker.head?)

/-- `TerminalSafe` -/
def terminalSafe (text : Bytes) : Bytes :=
  text.flatMap fun c =>
    if c = ch '\n' ∨ c = ch '\t' ∨ 0x20 ≤ c then if c = 0x7f then lit "\\x7f" else [c]
    else if c = ch '\r' then lit "\\r"
    else lit "\\x" ++ [Json.hexDigit (c >>> 4), Json.hexDigit (c &&& 15)]

/-- `PlausibleInlineMath` -/
def plausibleInlineMath (text : Bytes) : Bool :=
  if text = [] ∨ (find (lit "**") text).isSome ∨ ch '`' ∈ text then false
  else if !isDigit (text.headD 0) then true
  else
    let rest := text.dropWhile fun c => isDigit c || c = ch '.' || c = ch ','
    if rest = [] ∨ !isSpace (rest.headD 0) then true
    else rest.any (· ∈ lit "=+-*/^_\\<>")

/-! ### What is written -/

/-- The styles of the terminal; each is an escape sequence, or nothing. -/
inductive MdStyle
  | rst
  | dim
  | bold
  | boldOff
  | ital
  | italOff
  | code
  | codeBlk
  | fgDfl
  | math
  | eraseLines
deriving DecidableEq

/-- What reaches the terminal: text, and the sequences around it. -/
inductive Written
  | text (c : UInt8)
  | style (s : MdStyle)
deriving DecidableEq

/-- The text of what is written. -/
def Written.text? : Written → Option UInt8
  | .text c => some c
  | .style _ => none

/-- What the renderer is told about the terminal and about tables. -/
structure MdHost where
  displayWidth : Bytes → Nat
  prettyMath : Bytes → Bytes
  /-- `AsciiGlyphs("• ")` -/
  bullet : Bytes
  /-- the size of `SplitCells` -/
  cells : Bytes → Nat
  /-- what `FlushTable` writes of its rows, and whether one of them separates -/
  table : List Bytes → List Written × Bool

/-! ### State -/

/-- What a mathematical span was opened with. -/
inductive MathKind
  | inline
  | display
  | paren
  | bracket
deriving DecidableEq

/-- `MathOpen` -/
def mathOpen : MathKind → Bytes
  | .inline => lit "$"
  | .display => lit "$$"
  | .paren => lit "\\("
  | .bracket => lit "\\["

/-- `MdStream`, with everything it has written. -/
structure MdStream where
  on : Bool := true
  bold : Bool := false
  ital : Bool := false
  code : Bool := false
  math : Option MathKind := none
  dollar : Bool := false
  mathDollar : Bool := false
  slash : Bool := false
  mathText : Bytes := []
  star : Nat := 0
  linestart : Bool := true
  blankHeld : Nat := 0
  pre : Bytes := []
  out : List Written := []
  heading : Bool := false
  fence : Bool := false
  fencehead : Bool := false
  fenceChar : UInt8 := ch '`'
  fenceLen : Nat := 3
  intable : Bool := false
  tablemode : Bool := false
  row : Bytes := []
  table : List Bytes := []
  curRaw : Bytes := []
  prevRaw : Bytes := []

namespace MdStream

/-- `Put` of text. -/
def put (s : MdStream) (text : Bytes) : MdStream :=
  { s with out := s.out ++ text.map .text }

/-- `Put` of a style. -/
def style (s : MdStream) (style : MdStyle) : MdStream := { s with out := s.out ++ [.style style] }

/-- `ReleaseBlanks` -/
def releaseBlanks (s : MdStream) : MdStream :=
  if s.blankHeld = 0 then s else { s with blankHeld := 0 }.put [ch '\n']

/-- `Pv`: an empty text is no output, and releases nothing. -/
def pv (s : MdStream) (text : Bytes) : MdStream :=
  if text = [] then s else s.releaseBlanks.put text

/-- `Pc` -/
def pc (s : MdStream) (c : UInt8) : MdStream := s.releaseBlanks.put [c]

/-- `EmitPre` -/
def emitPre (s : MdStream) : MdStream := { s.pv s.pre with pre := [] }

/-- `Marker`: what is held of the line without its indentation. -/
def marker (s : MdStream) : Bytes := s.pre.dropWhile fun c => c = ch ' ' || c = ch '\t'

/-- `ForgetPreviousLine` -/
def forgetPreviousLine (s : MdStream) : MdStream := { s with prevRaw := [] }

variable (host : MdHost)

/-- Inline styles never span lines. -/
def dropStyles (s : MdStream) : MdStream :=
  if s.bold || s.ital || s.code || s.heading then
    { s.style .rst with bold := false, ital := false, code := false, heading := false }
  else s

/-- The newline, held back where nothing visible reached the line. -/
def newline (s : MdStream) : MdStream :=
  if host.displayWidth s.curRaw = 0 then { s with blankHeld := s.blankHeld + 1 }
  else s.put [ch '\n']

/-- `EndLine` -/
def endLine (s : MdStream) : MdStream :=
  { s.dropStyles.newline host with prevRaw := s.curRaw, curRaw := [], linestart := true }

/-! ### Tables -/

/-- `FlushTable` -/
def flushTable (s : MdStream) : MdStream :=
  if s.table = [] then s
  else
    let (lines, separated) := host.table s.table
    let s := { s with out := s.out ++ lines, table := [] }
    if separated then s.forgetPreviousLine else s

/-- `PushTableRow` -/
def pushTableRow (s : MdStream) (raw : Bytes) : MdStream :=
  let s := { s with table := s.table ++ [raw] }
  if s.table.length < kMdTableRows then s else s.flushTable host

/-- `RetroTable`: the line before was a table's header. -/
def retroTable (s : MdStream) : MdStream :=
  { (s.style .eraseLines).forgetPreviousLine with
    table := s.table ++ [s.prevRaw, s.marker]
    pre := []
    curRaw := []
    tablemode := true }

/-! ### Inline text -/

/-- A span opens. -/
def openMath (s : MdStream) (kind : MathKind) : MdStream :=
  { s.style .math with math := some kind, mathText := [] }

/-- `math_text += text`. -/
def hold (s : MdStream) (text : Bytes) : MdStream := { s with mathText := s.mathText ++ text }

/-- The first character of a span that a dollar opens, as `MathChar` takes it:
nothing is held yet, and it neither ends a line nor is a dollar
(`mathChar_first`). -/
def firstMathChar (s : MdStream) (c : UInt8) : MdStream :=
  if s.slash then { s with slash := false }.hold [ch '\\', c]
  else if c = ch '\\' then { s with slash := true }
  else s.hold [c]

/-- `InlineChar` once nothing is held: the markers themselves. -/
def inlineMarker (s : MdStream) (c : UInt8) : MdStream :=
  if c = ch '$' ∧ s.code = false then { s with dollar := true }
  else if c = ch '\\' ∧ s.code = false then { s with slash := true }
  else if c = ch '*' ∧ s.code = false then { s with star := 1 }
  else if c = ch '`' then
    if s.code then ({ s with code := false }.pc c).style .fgDfl
    else ({ s with code := true }.style .code).pc c
  else if c = ch '\n' then s.endLine host
  else s.pc c

/-- `InlineChar` behind `n` stars. -/
def afterStar (s : MdStream) (n : Nat) (c : UInt8) : MdStream :=
  if n = 1 ∧ c = ch '*' then
    if s.bold then { s with bold := false }.style .boldOff else { s with star := 2 }
  else if n = 2 then
    if c = ch ' ' ∨ c = ch '\n' then (s.pv (lit "**")).inlineMarker host c
    else ({ s with bold := true }.style .bold).inlineMarker host c
  else if s.ital then ({ s with ital := false }.style .italOff).inlineMarker host c
  else if c ≠ ch ' ' ∧ c ≠ ch '\n' then ({ s with ital := true }.style .ital).inlineMarker host c
  else (s.pv (lit "*")).inlineMarker host c

/-- `InlineChar` once dollar and backslash are resolved. -/
def inlineStar (s : MdStream) (c : UInt8) : MdStream :=
  if s.star = 0 then s.inlineMarker host c else { s with star := 0 }.afterStar host s.star c

/-- `InlineChar` behind a backslash. -/
def afterSlash (s : MdStream) (c : UInt8) : MdStream :=
  if s.code = false ∧ (c = ch '(' ∨ c = ch '[') then
    s.openMath (if c = ch '(' then .paren else .bracket)
  else if s.code = false ∧ markdownEscapable c then s.pc c
  else (s.pc (ch '\\')).inlineStar host c

/-- `InlineChar` once a dollar is resolved. -/
def inlineSlash (s : MdStream) (c : UInt8) : MdStream :=
  if s.slash then { s with slash := false }.afterSlash host c else s.inlineStar host c

/-- `InlineChar` behind a dollar. -/
def afterDollar (s : MdStream) (c : UInt8) : MdStream :=
  if c = ch '$' then s.openMath .display
  else if c ≠ ch '\n' ∧ c ≠ ch ' ' ∧ c ≠ ch '\t' then (s.openMath .inline).firstMathChar c
  else (s.pc (ch '$')).inlineSlash host c

/-- `InlineChar` -/
def inlineChar (s : MdStream) (c : UInt8) : MdStream :=
  if s.dollar then { s with dollar := false }.afterDollar host c else s.inlineSlash host c

/-! ### Mathematics -/

/-- Nothing is held of a span any more. -/
def closeMath (s : MdStream) : MdStream :=
  { s with
    math := none
    mathText := []
    dollar := false
    mathDollar := false
    slash := false }

/-- `FinishMath` -/
def finishMath (s : MdStream) : MdStream :=
  { (s.pv (host.prettyMath s.mathText)).closeMath with linestart := false }.style .fgDfl

/-- What is held of a span, behind its delimiter. -/
def heldText (s : MdStream) : Bytes :=
  s.mathText ++ (if s.slash then [ch '\\'] else []) ++ (if s.mathDollar then [ch '$'] else [])

/-- Nothing is held any more, and the delimiter is written as text. -/
def writeOpen (s : MdStream) : MdStream :=
  (s.closeMath.style .fgDfl).pv (mathOpen (s.math.getD .bracket))

/-- `ReplayMath` -/
def replayMath (s : MdStream) : MdStream := s.heldText.foldl (inlineChar host) s.writeOpen

/-- `while (math) ReplayMath()`, for as many rounds. -/
def replayLoop : Nat → MdStream → MdStream
  | 0, s => s
  | rounds + 1, s => if s.math = none then s else replayLoop rounds (s.replayMath host)

/-- The loop ends within two rounds (`math_replayLoop`). -/
def replayAll (s : MdStream) : MdStream := replayLoop host 2 s

/-- `MathChar`, for a character that is held unless it ends the line of an
inline span, or the blank line of a displayed one. -/
def mathLine (s : MdStream) (c : UInt8) : MdStream :=
  if c ≠ ch '\n' then s.hold [c]
  else if (s.math = some .display ∨ s.math = some .bracket) ∧
      s.mathText.getLast? ≠ some (ch '\n') then s.hold [c]
  else (s.replayAll host).endLine host

/-- `MathChar` in a span between double dollars. -/
def mathDisplay (s : MdStream) (c : UInt8) : MdStream :=
  if s.mathDollar then
    if c = ch '$' then { s with mathDollar := false }.finishMath host
    else ({ s with mathDollar := false }.hold [ch '$']).mathLine host c
  else if c = ch '$' then { s with mathDollar := true }
  else s.mathLine host c

/-- `MathChar` -/
def mathChar (s : MdStream) (c : UInt8) : MdStream :=
  if kMdMathBytes ≤ s.mathText.length then (s.replayMath host).inlineChar host c
  else if s.slash then
    if (s.math = some .paren ∧ c = ch ')') ∨ (s.math = some .bracket ∧ c = ch ']') then
      { s with slash := false }.finishMath host
    else { s with slash := false }.hold [ch '\\', c]
  else if c = ch '\\' then { s with slash := true }
  else if s.math = some .inline ∧ c = ch '$' then
    if plausibleInlineMath s.mathText then s.finishMath host
    else (s.hold [ch '$']).replayMath host
  else if s.math = some .display then s.mathDisplay host c
  else s.mathLine host c

/-- The first character of a span is held as `MathChar` holds it. -/
theorem mathChar_first {s : MdStream} {c : UInt8} (hmath : s.math = some .inline)
    (htext : s.mathText = []) (hdollar : c ≠ ch '$') (hline : c ≠ ch '\n') :
    s.mathChar host c = s.firstMathChar c := by
  unfold mathChar firstMathChar
  rw [htext, if_neg (by decide)]
  by_cases hslash : s.slash = true
  · rw [if_pos hslash, if_pos hslash]
    refine if_neg ?_
    rw [hmath]
    rintro (⟨hkind, -⟩ | ⟨hkind, -⟩) <;> cases hkind
  · rw [if_neg hslash, if_neg hslash]
    by_cases hback : c = ch '\\'
    · rw [if_pos hback, if_pos hback]
    · rw [if_neg hback, if_neg hback, if_neg fun h => hdollar h.2, hmath,
        if_neg (by decide), mathLine, if_pos hline]

/-! ### Lines -/

/-- A line goes on as inline text. -/
def inlineFrom (s : MdStream) (c : UInt8) : MdStream :=
  { s with linestart := false }.inlineChar host c

/-- `FenceClassify` -/
def fenceClassify (s : MdStream) (c : UInt8) : MdStream :=
  let s := s.releaseBlanks
  let run := (s.marker.takeWhile (· = s.fenceChar)).length
  if c = s.fenceChar ∧ run = s.marker.length then { s with pre := s.pre ++ [c] }
  else if s.fenceLen ≤ run then
    if c = ch ' ' then { s with pre := s.pre ++ [c] }
    else if c = ch '\n' then
      { (((s.style .dim).put s.pre).style .rst).put [ch '\n'] with pre := [], fence := false }
    else { (s.put s.pre).put [c] with pre := [], linestart := false }
  else if c = ch ' ' ∧ s.marker = [] then { s with pre := s.pre ++ [c] }
  else
    let s := { s.put s.pre with pre := [] }
    if c = ch '\n' then { s.put [ch '\n'] with prevRaw := [] }.style .codeBlk
    else { s.put [c] with linestart := false }

/-- `Step` in the line that opens a fence. -/
def fenceheadChar (s : MdStream) (c : UInt8) : MdStream :=
  if c = ch '\n' then
    let s := (s.style .rst).put [ch '\n']
    let s := if s.fence then s.style .codeBlk else s
    { s with fencehead := false, linestart := true }.forgetPreviousLine
  else s.put [c]

/-- `Classify` where only indentation has been read. -/
def classifyFirst (s : MdStream) (c : UInt8) : MdStream :=
  if c = ch ' ' ∨ c = ch '\t' then { s with pre := s.pre ++ [c] }
  else
    let s := if s.table ≠ [] ∧ c ≠ ch '|' then s.flushTable host else s
    if c ∈ lit "#`~-*" then { s with pre := s.pre ++ [c] }
    else if c = ch '|' then
      { s with row := s.pre ++ [c], pre := [], curRaw := [], intable := true }
    else if c = ch '\n' then s.emitPre.endLine host
    else s.emitPre.inlineFrom host c

/-- `Classify` behind hashes. -/
def classifyHash (s : MdStream) (c : UInt8) : MdStream :=
  if c = ch '#' ∧ s.marker.length < 6 then { s with pre := s.pre ++ [c] }
  else if c = ch ' ' then
    { (s.pv (s.pre.take (s.pre.length - s.marker.length))).style .bold with
      heading := true, pre := [], linestart := false }
  else s.emitPre.inlineFrom host c

/-- `Classify` behind backticks or tildes. -/
def classifyFence (s : MdStream) (m c : UInt8) : MdStream :=
  if c = m ∧ s.marker.all (· = m) then { s with pre := s.pre ++ [c] }
  else if isMarkdownFence s.marker then
    { (s.style .dim).pv s.pre with
      pre := [], fence := true, fenceChar := m, fenceLen := s.marker.length, fencehead := true,
      linestart := false }.fenceheadChar c
  else if m = ch '~' then s.emitPre.inlineFrom host c
  else
    let write (s : MdStream) (h : UInt8) := if h = ch '`' then s.inlineChar host h else s.pc h
    (s.pre.foldl write { s with pre := [], linestart := false }).inlineChar host c

/-- `Classify` behind a dash. -/
def classifyDash (s : MdStream) (c : UInt8) : MdStream :=
  let seppish := s.marker.all (· ∈ lit "-:| ")
  if seppish ∧ (c = ch '-' ∨ c = ch ':' ∨ c = ch '|' ∨ (c = ch ' ' ∧ 1 < s.marker.length)) then
    { s with pre := s.pre ++ [c] }
  else if c = ch '\n' then
    if seppish ∧ ch '|' ∈ s.marker ∧ 1 < host.cells s.prevRaw then s.retroTable
    else s.emitPre.endLine host
  else s.emitPre.inlineFrom host c

/-- `Classify` -/
def classify (s : MdStream) (c : UInt8) : MdStream :=
  if s.fence then s.fenceClassify c
  else
    match s.marker.head? with
    | none => s.classifyFirst host c
    | some m =>
      if m = ch '#' then s.classifyHash host c
      else if m = ch '`' ∨ m = ch '~' then s.classifyFence host m c
      else if s.marker.length = 1 ∧ c = ch ' ' then
        { (s.pv s.pre.dropLast).pv host.bullet with pre := [], linestart := false }
      else if m = ch '-' then s.classifyDash host c
      else
        -- The star was an emphasis marker, not a bullet.
        { { s with pre := s.pre.dropLast }.emitPre with star := 1 }.inlineFrom host c

/-- `Step`, where no table's body is read. -/
def stepLine (s : MdStream) (c : UInt8) : MdStream :=
  if s.intable then
    if c = ch '\n' then
      { s.pushTableRow host s.row with row := [], curRaw := [], intable := false, linestart := true }
    else { s with row := s.row ++ [c] }
  else if s.fencehead then s.fenceheadChar c
  else if s.math ≠ none then s.mathChar host c
  else if s.linestart then s.classify host c
  else if s.fence then
    if c = ch '\n' then
      { s.put [c] with linestart := true }.forgetPreviousLine.style .codeBlk
    else s.put [c]
  else s.inlineChar host c

/-- The line as it was read, up to a bound. -/
def recordRaw (s : MdStream) (c : UInt8) : MdStream :=
  if !s.intable && !s.tablemode && !s.fence && !s.fencehead && c ≠ ch '\n' &&
      s.curRaw.length < kMdLineBytes then
    { s with curRaw := s.curRaw ++ [c] }
  else s

/-- `Step` outside a table's body. -/
def stepText (s : MdStream) (c : UInt8) : MdStream := (s.recordRaw c).stepLine host c

/-- `Step` -/
def step (s : MdStream) (c : UInt8) : MdStream :=
  let s := s.recordRaw c
  if s.intable = false ∧ s.tablemode then
    if c ≠ ch '\n' then { s with row := s.row ++ [c] }
    else if 1 < host.cells s.row then { s.pushTableRow host s.row with row := [] }
    else
      -- The line is no row: the table ends before it.
      let tail := s.row ++ [ch '\n']
      let s := { { s with row := [], tablemode := false }.flushTable host with linestart := true }
      tail.foldl (stepText host) s
  else s.stepLine host c

/-- `Feed` -/
def feed (s : MdStream) (text : Bytes) : MdStream :=
  if s.on then (terminalSafe text).foldl (step host) s else s.put (terminalSafe text)

/-- A style that is open at the stream's end is reset. -/
def closeStyle (s : MdStream) : MdStream :=
  if s.bold || s.ital || s.code || s.math.isSome || s.heading || s.fence || s.fencehead then
    s.style .rst
  else s

/-- `Flush`: the stream ends, and what is still held is resolved. -/
def flush (s : MdStream) : MdStream :=
  if s.on then
    let s := s.replayAll host
    let s := if s.star = 0 then s else s.pv (if s.star = 2 then lit "**" else lit "*")
    let s := if s.dollar then s.pc (ch '$') else s
    let s := if s.slash then s.pc (ch '\\') else s
    let s := if s.intable || s.tablemode then
        let s := if s.row = [] then s else s.pushTableRow host s.row
        { s with row := [], intable := false, tablemode := false }
      else s
    { (s.flushTable host).emitPre.closeStyle with
      blankHeld := 0, bold := false, ital := false, code := false, heading := false,
      fence := false, fencehead := false, math := none, mathText := [], star := 0,
      dollar := false, mathDollar := false, slash := false, linestart := true }
  else s

end MdStream

end UAgent
