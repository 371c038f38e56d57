/-
UAgent/Tools/ReadFile.lean

`ToolReadFile` (src/tools/files.cc): a page of a text file, some lines from an
offset on, cut at a number of lines or at a byte limit.  The file is read a
block at a time (`FileLines`), and the page says in its hint where to go on.

Main result: `reads_every_line`.  Reading on from line 1 until a page says
that it is the last shows every line once and in order, when no line is longer
than the byte limit.
-/
import UAgent.Tools.FileEdits

namespace UAgent

open Bytes

/-! ### Lines out of blocks -/

/-- The blocks in which a text is read, the last one short or empty. -/
def blocksOf (size : Nat) (text : Bytes) : List Bytes :=
  (List.range (text.length / size + 1)).map fun i => (text.drop (i * size)).take size

/-- What `FileLines::Next` gives: the line, and what is left of the buffer and
to read after it. -/
structure NextLine where
  line : Bytes
  found : Bool
  limited : Bool
  blocks : List Bytes
deriving DecidableEq

/-- `FileLines::Next`; the first block is what is left of the buffer.  A line
that is skipped is not kept, one that is longer than `cap` is given up on. -/
def nextLine (cap : Nat) (skip : Bool) (line : Bytes) (found : Bool) : List Bytes → NextLine
  | [] => { line, found, limited := false, blocks := [] }
  | block :: blocks =>
    let piece := untilFirst 0x0a block
    let room := cap - line.length
    let kept := if skip then line else line ++ piece.take room
    if skip = false ∧ room < piece.length then
      { line := kept, found := true, limited := true, blocks := block :: blocks }
    else if 0x0a ∈ block then
      { line := kept, found := true, limited := false
        blocks := block.drop (piece.length + 1) :: blocks }
    else nextLine cap skip kept (found || block ≠ []) blocks

/-- `FileLines::More` -/
def moreBlocks (blocks : List Bytes) : Bool := blocks.any (· ≠ [])

/-- A skipped line: what is left is what follows it. -/
theorem nextLine_skip (cap : Nat) (line : Bytes) (found : Bool) (blocks : List Bytes) :
    (nextLine cap true line found blocks).found = (found || blocks.flatten ≠ []) ∧
      (nextLine cap true line found blocks).limited = false ∧
      (nextLine cap true line found blocks).blocks.flatten =
        blocks.flatten.drop ((untilFirst 0x0a blocks.flatten).length + 1) := by
  induction blocks generalizing found with
  | nil => simp [nextLine]
  | cons block blocks ih =>
    simp only [nextLine, if_true]
    rw [if_neg (by simp)]
    split_ifs with hmem
    · obtain ⟨a, b, rfl, ha⟩ := List.eq_append_cons_of_mem hmem
      simp [untilFirst_append_cons ha]
    · obtain ⟨hfound, hlimited, hblocks⟩ := ih (found || block ≠ [])
      rw [List.flatten_cons, untilFirst_append_of_not_mem hmem]
      refine ⟨?_, hlimited, ?_⟩
      · rw [hfound]
        cases block <;> simp
      · rw [hblocks, List.length_append, Nat.add_assoc, List.drop_length_add_append]

/-- A line that is kept: it is read whole when it fits. -/
theorem nextLine_keep {cap : Nat} (line : Bytes) (found : Bool) (blocks : List Bytes)
    (hline : line.length ≤ cap) :
    (line.length + (untilFirst 0x0a blocks.flatten).length ≤ cap →
      (nextLine cap false line found blocks).found = (found || blocks.flatten ≠ []) ∧
      (nextLine cap false line found blocks).limited = false ∧
      (nextLine cap false line found blocks).line = line ++ untilFirst 0x0a blocks.flatten ∧
      (nextLine cap false line found blocks).blocks.flatten =
        blocks.flatten.drop ((untilFirst 0x0a blocks.flatten).length + 1)) ∧
    (cap < line.length + (untilFirst 0x0a blocks.flatten).length →
      (nextLine cap false line found blocks).found = true ∧
      (nextLine cap false line found blocks).limited = true) := by
  induction blocks generalizing line found with
  | nil => simp [nextLine, untilFirst, hline]
  | cons block blocks ih =>
    simp only [nextLine, Bool.false_eq_true, if_false, true_and]
    by_cases hmem : (0x0a : UInt8) ∈ block
    · obtain ⟨a, b, rfl, ha⟩ := List.eq_append_cons_of_mem hmem
      rw [List.flatten_cons, untilFirst_append_cons ha, List.append_assoc, List.cons_append,
        untilFirst_append_cons ha, if_pos hmem]
      split_ifs with hroom
      · exact ⟨fun hle => absurd hle (by omega), fun _ => ⟨rfl, rfl⟩⟩
      · refine ⟨fun _ => ⟨?_, rfl, ?_, ?_⟩, fun hlt => absurd hlt (by omega)⟩
        · simp
        · show line ++ a.take (cap - line.length) = line ++ a
          rw [List.take_of_length_le (Nat.le_of_not_lt hroom)]
        · simp
    · rw [List.flatten_cons, untilFirst_append_of_not_mem hmem, untilFirst_eq_self hmem,
        if_neg hmem]
      split_ifs with hroom
      · refine ⟨fun hle => ?_, fun _ => ⟨rfl, rfl⟩⟩
        rw [List.length_append] at hle
        omega
      · -- the line goes on in the next block
        have hkept : line ++ block.take (cap - line.length) = line ++ block := by
          rw [List.take_of_length_le (Nat.le_of_not_lt hroom)]
        have hlength : (line ++ block).length ≤ cap := by
          rw [List.length_append]
          omega
        obtain ⟨hfits, hlimited⟩ := ih (line ++ block) (found || block ≠ []) hlength
        rw [hkept]
        rw [List.length_append, Nat.add_assoc] at hfits hlimited
        rw [List.length_append]
        refine ⟨fun hle => ?_, hlimited⟩
        obtain ⟨hfound, hnot, htext, hblocks⟩ := hfits hle
        refine ⟨?_, hnot, ?_, ?_⟩
        · rw [hfound]
          cases block <;> simp
        · rw [htext, List.append_assoc]
        · rw [hblocks, Nat.add_assoc, List.drop_length_add_append]

/-! ### A page -/

/-- What the loop of `ToolReadFile` keeps. -/
structure PageReading where
  out : Bytes := []
  total : Nat := 0
  shown : Nat := 0
  first : Nat := 0
  last : Nat := 0
  outputLimited : Bool := false
  lineTruncated : Bool := false
  blocks : List Bytes
deriving DecidableEq

/-- A line that was read takes something off what is left. -/
theorem length_nextLine {cap : Nat} {skip : Bool} {blocks : List Bytes}
    (hlimited : (nextLine cap skip [] false blocks).limited = false)
    (hfound : (nextLine cap skip [] false blocks).found = true) :
    (nextLine cap skip [] false blocks).blocks.flatten.length < blocks.flatten.length := by
  have hdrop (h : blocks.flatten ≠ []) (n : Nat) :
      (blocks.flatten.drop (n + 1)).length < blocks.flatten.length := by
    have hpos := List.length_pos_of_ne_nil h
    rw [List.length_drop]
    omega
  cases skip with
  | true =>
    obtain ⟨hf, -, hb⟩ := nextLine_skip cap [] false blocks
    rw [hf] at hfound
    rw [hb]
    exact hdrop (by simpa using hfound) _
  | false =>
    obtain ⟨hfits, hlong⟩ := nextLine_keep [] false blocks (Nat.zero_le cap)
    rcases Nat.lt_or_ge cap ([] ++ untilFirst 0x0a blocks.flatten).length with hlt | hle
    · rw [(hlong (by simpa using hlt)).2] at hlimited
      exact absurd hlimited (by decide)
    · obtain ⟨hf, -, -, hb⟩ := hfits (by simpa using hle)
      rw [hf] at hfound
      rw [hb]
      exact hdrop (by simpa using hfound) _

/-- The loop of `ToolReadFile`: lines before the offset are skipped, and a line
that leaves no room for its newline ends the page. -/
def readLoop (readBytes limit offset : Nat) (r : PageReading) : PageReading :=
  let room := readBytes - r.out.length
  let total := r.total + 1
  if r.shown < limit then
    if _hnext : (nextLine room (total < offset) [] false r.blocks).found = true then
      let next := nextLine room (total < offset) [] false r.blocks
      if _hskip : total < offset then
        readLoop readBytes limit offset { r with total, blocks := next.blocks }
      else if _hlong : next.limited ∨ room ≤ next.line.length then
        if r.out = [] then
          { out := utf8Prefix next.line readBytes, total, shown := 1, first := total, last := total
            outputLimited := true, lineTruncated := true, blocks := next.blocks }
        else { r with total, outputLimited := true, blocks := next.blocks }
      else
        readLoop readBytes limit offset
          { r with
            out := r.out ++ (next.line ++ [0x0a])
            total
            shown := r.shown + 1
            first := if r.first = 0 then total else r.first
            last := total
            blocks := next.blocks }
    else { r with blocks := (nextLine room (total < offset) [] false r.blocks).blocks }
  else r
termination_by r.blocks.flatten.length
decreasing_by
  · refine length_nextLine ?_ _hnext
    rw [decide_eq_true _hskip]
    exact (nextLine_skip _ _ _ _).2.1
  · exact length_nextLine (by simpa using (not_or.mp _hlong).1) _hnext

/-- `kReadFileMaxLines` -/
def kReadFileMaxLines : Int := 10000

/-- The fields of `ToolResult` that `ToolReadFile` fills. -/
structure ReadResult where
  output : Bytes
  hint : Bytes := []
  items : Option Nat := none
  unit : Bytes := []
  readRange : Option (Bytes × Nat × Nat) := none
  error : Option FileErrorCode := none
  cancelled : Bool := false
deriving DecidableEq

/-- The file a call reads, and what happens while it does. -/
structure ReadSite where
  content : Bytes
  /-- `AttachmentMime` of the name -/
  mime : Bytes := lit "application/octet-stream"
  /-- the refusal of `ValidatePathTarget` -/
  unreadable : Option ReadResult := none
  /-- the answer of `Attachments().Add`, for a file that is no text -/
  attached : ReadResult := { output := [] }
  /-- the failure to open it -/
  unopened : Option FileErrorCode := none
  /-- the user stops the read before it is over -/
  cancelled : Bool := false
  /-- the read fails -/
  failed : Bool := false

/-- A failure, as `ToolFailure` words it. -/
def readFailure (code : FileErrorCode) (output : Bytes) : ReadResult :=
  { output := toolFailure output, error := some code }

/-- What a page says about itself: its lines, and whether it is the last. -/
def pageHint (path : Bytes) (requested : Int) (more : Bool) (r : PageReading) : Bytes :=
  lit "[" ++ path ++ lit " lines " ++ Json.decimal r.first ++ lit "-" ++ Json.decimal r.last ++
    ((if r.outputLimited then
        if r.lineTruncated then
          lit "; line prefix limited; use a targeted search or run to inspect the remainder"
        else lit "; output byte limit reached; more available"
      else if more then lit "; more available"
      else lit " of " ++ Json.decimal r.total) ++
    ((if kReadFileMaxLines < requested then
        lit "; limit " ++ Json.decimalInt kReadFileMaxLines ++ lit " of " ++
          Json.decimalInt requested ++ lit " requested"
      else []) ++ lit "]"))

/-- The lines asked for; 0 is unset. -/
def requestedLines (readFileLines limit : Int) : Int := if limit = 0 then readFileLines else limit

/-- The lines a page may show; a negative request is for as many as allowed. -/
def lineLimit (requested : Int) : Int :=
  if requested ≤ 0 ∨ kReadFileMaxLines < requested then kReadFileMaxLines else requested

/-- The answer of `ToolReadFile` once the loop is over. -/
def readAnswer (path : Bytes) (requested : Int) (offset : Nat) (r : PageReading) : ReadResult :=
  let more := r.outputLimited || (decide ((lineLimit requested).toNat ≤ r.shown) && moreBlocks r.blocks)
  if r.total = 0 then { output := lit "(empty file)" }
  else if r.total < offset ∧ more = false then
    readFailure .invalidArguments (lit "offset " ++ Json.decimal offset ++ lit " is beyond EOF (" ++
      Json.decimal r.total ++ lit " lines)")
  else
    { output := r.out
      hint := pageHint path requested more r
      items := some (r.last - r.first + 1)
      unit := lit "line"
      readRange := if r.outputLimited then none else some (path, r.first, r.last) }

/-- `ToolReadFile`; `readFileLines` and `readBytes` are settings. -/
def toolReadFile (readFileLines : Int) (readBytes : Nat) (site : ReadSite) (path : Bytes)
    (offset limit : Int) : ReadResult :=
  match site.unreadable with
  | some refusal => refusal
  | none =>
    if likelyTextFile site.mime site.content = false then
      if offset ≠ 1 ∨ limit ≠ 0 then
        readFailure .invalidArguments (lit "omit offset and limit for images/documents")
      else site.attached
    else
      let requested := requestedLines readFileLines limit
      let start := (if offset < 1 then 1 else offset).toNat
      match site.unopened with
      | some code => readFailure code (lit "cannot open " ++ path)
      | none =>
        if site.cancelled then { output := lit "error: read cancelled by user", cancelled := true }
        else if site.failed then readFailure .internal (lit "read failed")
        else
          readAnswer path requested start (readLoop readBytes (lineLimit requested).toNat start
            { blocks := blocksOf 8192 site.content })

/-! ### The lines left -/

theorem blocksOf_flatten {size : Nat} (hsize : 0 < size) (text : Bytes) :
    (blocksOf size text).flatten = text := by
  have htake (n : Nat) : ((List.range n).map fun i => (text.drop (i * size)).take size).flatten =
      text.take (n * size) := by
    induction n with
    | zero => simp
    | succ n ih =>
      rw [List.range_succ, List.map_append, List.flatten_append, ih, Nat.succ_mul, List.take_add]
      simp
  rw [blocksOf, htake, List.take_of_length_le]
  have hlt := Nat.lt_div_mul_add hsize (a := text.length)
  rw [Nat.succ_mul]
  exact hlt.le

theorem moreBlocks_eq_false_iff {blocks : List Bytes} :
    moreBlocks blocks = false ↔ blocks.flatten = [] := by
  simp [moreBlocks, List.flatten_eq_nil_iff]

/-- The first line that is left to read. -/
theorem left_cons {text line : Bytes} {lines : List Bytes} (h : fileLines text = line :: lines) :
    text ≠ [] ∧ untilFirst 0x0a text = line ∧ fileLines (text.drop (line.length + 1)) = lines := by
  have hne : text ≠ [] := by
    rintro rfl
    exact absurd h (by simp [fileLines, linesFrom])
  rw [fileLines_eq_cons hne, List.cons.injEq] at h
  obtain ⟨rfl, hlines⟩ := h
  exact ⟨hne, rfl, hlines⟩

theorem left_nil {text : Bytes} (h : fileLines text = []) : text = [] := by
  by_contra hne
  rw [fileLines_eq_cons hne] at h
  exact absurd h (by simp)

section Loop

variable {readBytes limit offset : Nat} {r : PageReading} {line : Bytes} {lines : List Bytes}

/-- A page that has its lines is done. -/
theorem readLoop_done (h : limit ≤ r.shown) : readLoop readBytes limit offset r = r := by
  rw [readLoop, if_neg (Nat.not_lt.mpr h)]

/-- At the end of the file nothing is read. -/
theorem readLoop_end (hshown : r.shown < limit) (hleft : fileLines r.blocks.flatten = []) :
    ∃ blocks, blocks.flatten = [] ∧
      readLoop readBytes limit offset r = { r with blocks := blocks } := by
  have hnil := left_nil hleft
  have hnext : (nextLine (readBytes - r.out.length) (r.total + 1 < offset) [] false r.blocks).found =
        false ∧
      (nextLine (readBytes - r.out.length) (r.total + 1 < offset) [] false r.blocks).blocks.flatten =
        [] := by
    by_cases hskip : r.total + 1 < offset
    · obtain ⟨hfound, -, hblocks⟩ := nextLine_skip (readBytes - r.out.length) [] false r.blocks
      rw [decide_eq_true hskip, hfound, hblocks, hnil]
      exact ⟨rfl, rfl⟩
    · obtain ⟨hfound, -, -, hblocks⟩ := (nextLine_keep [] false r.blocks
        (Nat.zero_le (readBytes - r.out.length))).1 (by simp [hnil, untilFirst])
      rw [decide_eq_false hskip, hfound, hblocks, hnil]
      exact ⟨rfl, rfl⟩
  refine ⟨_, hnext.2, ?_⟩
  rw [readLoop, if_pos hshown, dif_neg (by rw [hnext.1]; decide)]

/-- A line before the offset is passed over. -/
theorem readLoop_skip (hshown : r.shown < limit) (hleft : fileLines r.blocks.flatten = line :: lines)
    (hskip : r.total + 1 < offset) :
    ∃ blocks, fileLines blocks.flatten = lines ∧ readLoop readBytes limit offset r =
      readLoop readBytes limit offset { r with total := r.total + 1, blocks := blocks } := by
  obtain ⟨hne, rfl, hlines⟩ := left_cons hleft
  obtain ⟨hfound, -, hblocks⟩ := nextLine_skip (readBytes - r.out.length) [] false r.blocks
  rw [← hblocks] at hlines
  refine ⟨_, hlines, ?_⟩
  rw [readLoop, if_pos hshown]
  simp only [decide_eq_true hskip]
  rw [dif_pos (by rw [hfound]; simpa using hne), dif_pos hskip]

/-- A line that leaves room for its newline is shown. -/
theorem readLoop_show (hshown : r.shown < limit) (hleft : fileLines r.blocks.flatten = line :: lines)
    (hoffset : offset ≤ r.total + 1) (hfits : line.length < readBytes - r.out.length) :
    ∃ blocks, fileLines blocks.flatten = lines ∧ readLoop readBytes limit offset r =
      readLoop readBytes limit offset
        { r with
          out := r.out ++ (line ++ [0x0a])
          total := r.total + 1
          shown := r.shown + 1
          first := if r.first = 0 then r.total + 1 else r.first
          last := r.total + 1
          blocks := blocks } := by
  obtain ⟨hne, rfl, hlines⟩ := left_cons hleft
  obtain ⟨hfound, hlimited, hline, hblocks⟩ := (nextLine_keep [] false r.blocks
    (Nat.zero_le (readBytes - r.out.length))).1 (by simpa using hfits.le)
  rw [← hblocks] at hlines
  refine ⟨_, hlines, ?_⟩
  rw [readLoop, if_pos hshown]
  simp only [decide_eq_false (Nat.not_lt.mpr hoffset)]
  rw [dif_pos (by rw [hfound]; simpa using hne), dif_neg (Nat.not_lt.mpr hoffset), dif_neg, hline]
  · rfl
  · rw [hlimited, hline, List.nil_append]
    exact not_or.mpr ⟨by decide, Nat.not_le.mpr hfits⟩

/-- What a line that leaves no room for its newline looks like: it is given up
on, or it is read and fills the room. -/
theorem nextLine_long {cap : Nat} {blocks : List Bytes} (hne : blocks.flatten ≠ [])
    (hlong : cap ≤ (untilFirst 0x0a blocks.flatten).length) :
    (nextLine cap false [] false blocks).found = true ∧
      ((nextLine cap false [] false blocks).limited = true ∨
        cap ≤ (nextLine cap false [] false blocks).line.length) ∧
      ((untilFirst 0x0a blocks.flatten).length ≤ cap →
        (nextLine cap false [] false blocks).line = untilFirst 0x0a blocks.flatten) := by
  obtain ⟨hkept, hcut⟩ := nextLine_keep [] false blocks (Nat.zero_le cap)
  simp only [List.length_nil, Nat.zero_add, List.nil_append] at hkept hcut
  rcases Nat.lt_or_ge cap (untilFirst 0x0a blocks.flatten).length with hlt | hle
  · obtain ⟨hfound, hlimited⟩ := hcut hlt
    exact ⟨hfound, .inl hlimited, fun hle => absurd hlt (Nat.not_lt.mpr hle)⟩
  · obtain ⟨hfound, -, hline, -⟩ := hkept hle
    rw [hfound, hline]
    exact ⟨by simpa using hne, .inr hlong, fun _ => rfl⟩

/-- A line that leaves no room ends a page that shows lines. -/
theorem readLoop_full (hshown : r.shown < limit) (hleft : fileLines r.blocks.flatten = line :: lines)
    (hoffset : offset ≤ r.total + 1) (hlong : readBytes - r.out.length ≤ line.length)
    (hout : r.out ≠ []) :
    ∃ blocks, readLoop readBytes limit offset r =
      { r with total := r.total + 1, outputLimited := true, blocks := blocks } := by
  obtain ⟨hne, rfl, -⟩ := left_cons hleft
  obtain ⟨hfound, hends, -⟩ := nextLine_long hne hlong
  refine ⟨(nextLine (readBytes - r.out.length) false [] false r.blocks).blocks, ?_⟩
  rw [readLoop, if_pos hshown]
  simp only [decide_eq_false (Nat.not_lt.mpr hoffset)]
  rw [dif_pos hfound, dif_neg (Nat.not_lt.mpr hoffset), dif_pos hends, if_neg hout]

/-- A line as long as a page is a page of its own. -/
theorem readLoop_long (hshown : r.shown < limit) (hleft : fileLines r.blocks.flatten = line :: lines)
    (hoffset : offset ≤ r.total + 1) (hout : r.out = []) (hlong : line.length = readBytes) :
    ∃ blocks, readLoop readBytes limit offset r =
      { out := line, total := r.total + 1, shown := 1, first := r.total + 1, last := r.total + 1
        outputLimited := true, lineTruncated := true, blocks := blocks } := by
  obtain ⟨hne, rfl, -⟩ := left_cons hleft
  obtain ⟨hfound, hends, hline⟩ := nextLine_long hne hlong.ge
  refine ⟨(nextLine readBytes false [] false r.blocks).blocks, ?_⟩
  rw [readLoop, if_pos hshown]
  simp only [decide_eq_false (Nat.not_lt.mpr hoffset), hout, List.length_nil, Nat.sub_zero]
  rw [dif_pos hfound, dif_neg (Nat.not_lt.mpr hoffset), dif_pos hends, if_pos trivial, hline hlong.le,
    utf8Prefix, if_pos hlong.le]

end Loop

/-! ### What a page shows -/

/-- The loop has shown the lines `g` from `offset` on. -/
structure ShowsLines (offset : Nat) (g : List Bytes) (r : PageReading) : Prop where
  out : r.out = unlines g
  shown : r.shown = g.length
  total : r.total + 1 = offset + g.length
  first : g ≠ [] → r.first = offset
  none : g = [] → r.first = 0
  last : g ≠ [] → r.last = r.total
  whole : r.outputLimited = false

/-- The loop has made a page of the lines `g`; `more` is what the page says of
the lines behind them. -/
structure Page (offset : Nat) (g rest : List Bytes) (more : Bool) (r : PageReading) : Prop where
  text : fileLines r.out = g
  first : r.first = offset
  last : r.last + 1 = offset + g.length
  total : r.last ≤ r.total
  whole : more = false → rest = []

section Pages

variable {readBytes limit offset : Nat} {r : PageReading} {g : List Bytes}

theorem ShowsLines.page (h : ShowsLines offset g r) (hne : g ≠ []) (hone : ∀ line ∈ g, OneLine line)
    {rest : List Bytes} {more : Bool} (hmore : more = false → rest = []) {total : Nat}
    (htotal : r.total ≤ total) (limited : Bool) (blocks : List Bytes) :
    Page offset g rest more
      { r with total := total, outputLimited := limited, blocks := blocks } where
  text := by
    show fileLines r.out = g
    rw [h.out, fileLines_unlines hone]
  first := h.first hne
  last := by
    show r.last + 1 = _
    rw [h.last hne, h.total]
  total := by
    show r.last ≤ total
    rw [h.last hne]
    exact htotal
  whole := hmore

/-- A line is shown behind those shown before. -/
theorem ShowsLines.snoc (h : ShowsLines offset g r) (hoffset : 0 < offset) (line : Bytes)
    (blocks : List Bytes) :
    ShowsLines offset (g ++ [line])
      { r with
        out := r.out ++ (line ++ [0x0a])
        total := r.total + 1
        shown := r.shown + 1
        first := if r.first = 0 then r.total + 1 else r.first
        last := r.total + 1
        blocks := blocks } where
  out := by simp [h.out]
  shown := by simp [h.shown]
  total := by
    show r.total + 1 + 1 = _
    rw [h.total, List.length_append, List.length_singleton, Nat.add_assoc]
  first := fun _ => by
    show (if r.first = 0 then r.total + 1 else r.first) = offset
    by_cases hg : g = []
    · have htotal := h.total
      rw [if_pos (h.none hg), htotal, hg, List.length_nil, Nat.add_zero]
    · rw [h.first hg, if_neg (Nat.ne_of_gt hoffset)]
  none := fun hnil => absurd hnil (by simp)
  last := fun _ => rfl
  whole := h.whole

/-- **The loop makes a page** of the next lines, and says whether there are
more. -/
theorem readLoop_page (hread : 0 < readBytes) (hlimit : 0 < limit) (hoffset : 0 < offset)
    {lines : List Bytes} (hfit : ∀ line ∈ lines, line.length ≤ readBytes)
    (hone : ∀ line ∈ g ++ lines, OneLine line) (hshows : ShowsLines offset g r)
    (hleft : fileLines r.blocks.flatten = lines) (hne : g ++ lines ≠ []) :
    ∃ g' rest, lines = g' ++ rest ∧ g ++ g' ≠ [] ∧
      Page offset (g ++ g') rest
        ((readLoop readBytes limit offset r).outputLimited ||
          (decide (limit ≤ (readLoop readBytes limit offset r).shown) &&
            moreBlocks (readLoop readBytes limit offset r).blocks))
        (readLoop readBytes limit offset r) := by
  have hgone : ∀ line ∈ g, OneLine line := fun line hline => hone line (List.mem_append_left _ hline)
  induction lines generalizing g r with
  | nil =>
    rw [List.append_nil] at hne
    refine ⟨[], [], rfl, by rwa [List.append_nil], ?_⟩
    rw [List.append_nil]
    rcases Nat.lt_or_ge r.shown limit with hlt | hge
    · obtain ⟨blocks, -, hloop⟩ := @readLoop_end readBytes limit offset r hlt hleft
      rw [hloop]
      exact hshows.page hne hgone (fun _ => rfl) le_rfl _ _
    · rw [readLoop_done hge]
      exact hshows.page hne hgone (fun _ => rfl) le_rfl _ _
  | cons line lines ih =>
    rcases Nat.lt_or_ge r.shown limit with hlt | hge
    · have htotal : offset ≤ r.total + 1 := hshows.total ▸ Nat.le_add_right _ _
      rcases Nat.lt_or_ge line.length (readBytes - r.out.length) with hroom | hlong
      · -- the line is shown, and the page goes on
        obtain ⟨blocks, hrest, hloop⟩ := readLoop_show hlt hleft htotal hroom
        obtain ⟨g', rest, rfl, hne', hpage⟩ :=
          ih (fun other h => hfit other (List.mem_cons_of_mem _ h)) (by simpa using hone)
            (hshows.snoc hoffset line blocks) hrest (by simp)
            (fun other h => hone other (by simp at h ⊢; tauto))
        refine ⟨line :: g', rest, rfl, by simp, ?_⟩
        rw [hloop]
        rwa [List.append_assoc, List.singleton_append] at hpage
      · by_cases hg : g = []
        · -- a line of the full length is a page of its own
          subst hg
          have hout : r.out = [] := hshows.out
          rw [hout, List.length_nil, Nat.sub_zero] at hlong
          have hfull := le_antisymm (hfit line List.mem_cons_self) hlong
          obtain ⟨blocks, hloop⟩ := readLoop_long hlt hleft htotal hout hfull
          refine ⟨[line], lines, rfl, by simp, ?_⟩
          have hstart : r.total + 1 = offset := hshows.total
          rw [hloop, hstart]
          refine ⟨?_, rfl, rfl, le_rfl, fun h => absurd h (by simp)⟩
          have hline : line ≠ [] := by
            rintro rfl
            exact absurd hfull (Nat.ne_of_lt hread)
          show fileLines line = [line]
          rw [fileLines, linesFrom_last (hone line (by simp)), List.nil_append, if_neg hline]
        · have hout : r.out ≠ [] := by
            obtain ⟨first, others, rfl⟩ := List.exists_cons_of_ne_nil hg
            rw [hshows.out, unlines_cons]
            simp
          obtain ⟨blocks, hloop⟩ := readLoop_full hlt hleft htotal hlong hout
          refine ⟨[], line :: lines, rfl, by simpa using hg, ?_⟩
          rw [hloop, List.append_nil]
          exact hshows.page hg hgone (fun h => absurd h (by simp)) (Nat.le_succ _) _ _
    · have hg : g ≠ [] := by
        rintro rfl
        rw [hshows.shown] at hge
        exact absurd hge (Nat.not_le.mpr hlimit)
      refine ⟨[], line :: lines, rfl, by simpa using hg, ?_⟩
      rw [readLoop_done hge, List.append_nil]
      refine hshows.page hg hgone (fun h => ?_) le_rfl _ _
      have hmore : moreBlocks r.blocks = false := by
        simpa [hshows.whole, hge] using h
      rw [moreBlocks_eq_false_iff.mp hmore] at hleft
      exact absurd hleft (by simp [fileLines, linesFrom])

/-- The lines before the offset are passed over. -/
theorem readLoop_skips (hlimit : 0 < limit) (k : Nat) {total : Nat} {blocks : List Bytes}
    (hoffset : offset = total + 1 + k) :
    (k ≤ (fileLines blocks.flatten).length → ∃ blocks',
      fileLines blocks'.flatten = (fileLines blocks.flatten).drop k ∧
      readLoop readBytes limit offset { total := total, blocks := blocks } =
        readLoop readBytes limit offset { total := total + k, blocks := blocks' }) ∧
    ((fileLines blocks.flatten).length < k → ∃ blocks',
      readLoop readBytes limit offset { total := total, blocks := blocks } =
        { total := total + (fileLines blocks.flatten).length, blocks := blocks' }) := by
  induction k generalizing total blocks with
  | zero =>
    exact ⟨fun _ => ⟨blocks, rfl, rfl⟩, fun h => absurd h (Nat.not_lt_zero _)⟩
  | succ k ih =>
    rcases hleft : fileLines blocks.flatten with - | ⟨line, lines⟩
    · refine ⟨fun h => absurd h (by simp), fun _ => ?_⟩
      obtain ⟨blocks', -, hloop⟩ :=
        @readLoop_end readBytes limit offset { total := total, blocks := blocks } hlimit hleft
      exact ⟨blocks', hloop⟩
    · obtain ⟨blocks', hlines, hloop⟩ := @readLoop_skip readBytes limit offset
        { total := total, blocks := blocks } _ _ hlimit hleft
        (show total + 1 < offset by omega)
      have hih := @ih (total + 1) blocks' (by omega)
      rw [hlines] at hih
      refine ⟨fun hle => ?_, fun hlt => ?_⟩
      · obtain ⟨blocks'', hdrop, hrest⟩ := hih.1 (Nat.le_of_succ_le_succ hle)
        exact ⟨blocks'', hdrop, by rw [hloop, hrest, Nat.add_right_comm, Nat.add_assoc]⟩
      · obtain ⟨blocks'', hrest⟩ := hih.2 (Nat.lt_of_succ_lt_succ hlt)
        exact ⟨blocks'', by rw [hloop, hrest, List.length_cons, Nat.add_right_comm, Nat.add_assoc]⟩

end Pages

/-! ### Reading on -/

/-- Where a reader of `path` goes on, as the hint of a result says: behind the
last line shown, when it does not say how many lines there are. -/
def nextOffset (path : Bytes) (result : ReadResult) : Option Nat :=
  let start := lit "[" ++ path ++ lit " lines "
  if start <+: result.hint then
    let last := ((result.hint.drop start.length).dropWhile isDigit).drop 1
    let digits := last.takeWhile isDigit
    if (last.drop digits.length).head? = some (ch ';') then
      some (digits.foldl (fun n c => 10 * n + (c - 0x30).toNat) 0 + 1)
    else none
  else none

/-- The lines a result shows. -/
def pageLines (result : ReadResult) : List Bytes :=
  if result.items.isSome then fileLines result.output else []

/-- Reading from an offset, and then behind the last line shown, until a result
does not say that there is more. -/
inductive ReadOn (read : Nat → ReadResult) (path : Bytes) : Nat → List ReadResult → Prop
  | stop {offset : Nat} (h : nextOffset path (read offset) = none) :
      ReadOn read path offset [read offset]
  | more {offset next : Nat} {results : List ReadResult}
      (h : nextOffset path (read offset) = some next) (rest : ReadOn read path next results) :
      ReadOn read path offset (read offset :: results)

/-- A number is read up to what follows it. -/
theorem span_decimal (n : Nat) {c : UInt8} (hc : isDigit c = false) (s : Bytes) :
    (Json.decimal n ++ c :: s).takeWhile isDigit = Json.decimal n ∧
      (Json.decimal n ++ c :: s).dropWhile isDigit = c :: s := by
  have hdigits : ∀ d ∈ Json.decimal n, isDigit d = true := fun d hd => by
    simpa [isDigit] using Json.digit_of_mem_decimal hd
  constructor
  · rw [List.takeWhile_append_of_pos hdigits]
    simp [hc]
  · rw [List.dropWhile_append_of_pos hdigits]
    simp [hc]

/-- The character behind the last line number tells a page from the last one. -/
theorem pageHint_eq (path : Bytes) (requested : Int) (more : Bool) (r : PageReading) :
    ∃ s, pageHint path requested more r = (lit "[" ++ path ++ lit " lines ") ++
      (Json.decimal r.first ++ ch '-' :: (Json.decimal r.last ++
        (if r.outputLimited || more then ch ';' else ch ' ') :: s)) := by
  have hdash : lit "-" = [ch '-'] := by decide
  have htruncated :
      lit "; line prefix limited; use a targeted search or run to inspect the remainder" =
        ch ';' :: lit " line prefix limited; use a targeted search or run to inspect the remainder" := by
    decide
  have hlimited : lit "; output byte limit reached; more available" =
      ch ';' :: lit " output byte limit reached; more available" := by decide
  have hmore : lit "; more available" = ch ';' :: lit " more available" := by decide
  have hof : lit " of " = ch ' ' :: lit "of " := by decide
  obtain ⟨s, hs⟩ : ∃ s, (if r.outputLimited then
        if r.lineTruncated then
          lit "; line prefix limited; use a targeted search or run to inspect the remainder"
        else lit "; output byte limit reached; more available"
      else if more then lit "; more available"
      else lit " of " ++ Json.decimal r.total) =
        (if r.outputLimited || more then ch ';' else ch ' ') :: s := by
    cases r.outputLimited with
    | true =>
      cases r.lineTruncated with
      | true => exact ⟨_, htruncated⟩
      | false => exact ⟨_, hlimited⟩
    | false =>
      cases more with
      | true => exact ⟨_, hmore⟩
      | false => exact ⟨lit "of " ++ Json.decimal r.total, congrArg (· ++ _) hof⟩
  rw [pageHint, hdash, hs]
  exact ⟨s ++ _, by simp only [List.append_assoc, List.cons_append, List.nil_append]; rfl⟩

/-- **A page says where to go on** exactly when it does not say it is the last. -/
theorem nextOffset_pageHint (path : Bytes) (requested : Int) (more : Bool) (r : PageReading)
    {result : ReadResult} (h : result.hint = pageHint path requested more r) :
    nextOffset path result = if r.outputLimited || more then some (r.last + 1) else none := by
  obtain ⟨s, hs⟩ := pageHint_eq path requested more r
  have hdigit : isDigit (if r.outputLimited || more then ch ';' else ch ' ') = false := by
    split_ifs <;> decide
  rw [nextOffset, h, hs]
  simp only
  rw [if_pos (List.prefix_append _ _), List.drop_left, (span_decimal _ (by decide) _).2,
    List.drop_one, List.tail_cons, (span_decimal _ hdigit _).1, List.drop_left, List.head?_cons,
    Json.foldl_decimal]
  split_ifs with hmore hne hne
  · rfl
  · exact absurd rfl hne
  · exact absurd hne (by decide)
  · rfl

theorem nextOffset_of_hint_nil {path : Bytes} {result : ReadResult} (h : result.hint = []) :
    nextOffset path result = none := by
  rw [nextOffset, h]
  refine if_neg fun hpre => ?_
  have hnil := List.prefix_nil.mp hpre
  simp [show lit "[" = [ch '['] by decide] at hnil

/-! ### The whole file -/

/-- A text file that can be read, and is not stopped being read. -/
structure Readable (site : ReadSite) : Prop where
  readable : site.unreadable = none
  text : likelyTextFile site.mime site.content = true
  opened : site.unopened = none
  going : site.cancelled = false
  sound : site.failed = false

theorem lineLimit_pos (requested : Int) : 0 < (lineLimit requested).toNat := by
  rw [lineLimit]
  split_ifs with h
  · decide
  · omega

section WholeFile

variable {readFileLines limit : Int} {readBytes : Nat} {site : ReadSite}

theorem toolReadFile_eq (hsite : Readable site) (path : Bytes) (k : Nat) :
    toolReadFile readFileLines readBytes site path ((k + 1 : Nat) : Int) limit =
      readAnswer path (requestedLines readFileLines limit) (k + 1)
        (readLoop readBytes (lineLimit (requestedLines readFileLines limit)).toNat (k + 1)
          { blocks := blocksOf 8192 site.content }) := by
  have hstart : (if ((k + 1 : Nat) : Int) < 1 then 1 else ((k + 1 : Nat) : Int)).toNat = k + 1 := by
    rw [if_neg (by omega), Int.toNat_natCast]
  simp only [toolReadFile, hsite.readable, hsite.text, hsite.opened, hsite.going, hsite.sound, hstart,
    Bool.true_eq_false, if_false, Bool.false_eq_true]

/-- Behind the last line the end is reported. -/
theorem toolReadFile_end (hsite : Readable site) (path : Bytes) :
    nextOffset path (toolReadFile readFileLines readBytes site path
        (((fileLines site.content).length + 1 : Nat) : Int) limit) = none ∧
      pageLines (toolReadFile readFileLines readBytes site path
        (((fileLines site.content).length + 1 : Nat) : Int) limit) = [] := by
  have hlimit := lineLimit_pos (requestedLines readFileLines limit)
  have hblocks := blocksOf_flatten (show 0 < 8192 by decide) site.content
  obtain ⟨blocks, hleft, hskips⟩ := (@readLoop_skips readBytes _
    ((fileLines site.content).length + 1) hlimit (fileLines site.content).length 0
    (blocksOf 8192 site.content) (by omega)).1 (by rw [hblocks])
  rw [hblocks, List.drop_length] at hleft
  obtain ⟨blocks', -, hend⟩ := @readLoop_end readBytes _ ((fileLines site.content).length + 1)
    { total := 0 + (fileLines site.content).length, blocks := blocks } hlimit hleft
  rw [toolReadFile_eq hsite, hskips, hend, readAnswer]
  simp only [Nat.zero_add, Nat.not_le.mpr hlimit, decide_false, Bool.false_and, Bool.or_false]
  by_cases hnone : (fileLines site.content).length = 0
  · rw [if_pos hnone]
    exact ⟨nextOffset_of_hint_nil rfl, rfl⟩
  · rw [if_neg hnone, if_pos ⟨Nat.lt_succ_self _, trivial⟩]
    exact ⟨nextOffset_of_hint_nil rfl, rfl⟩

/-- Before the end a page of the next lines is shown. -/
theorem toolReadFile_page (hread : 0 < readBytes) (hsite : Readable site) (path : Bytes)
    (hfit : ∀ line ∈ fileLines site.content, line.length ≤ readBytes) {k : Nat}
    (hk : k < (fileLines site.content).length) :
    ∃ g rest, (fileLines site.content).drop k = g ++ rest ∧ g ≠ [] ∧
      pageLines (toolReadFile readFileLines readBytes site path ((k + 1 : Nat) : Int) limit) = g ∧
      (nextOffset path (toolReadFile readFileLines readBytes site path ((k + 1 : Nat) : Int) limit) =
          some (k + g.length + 1) ∨
        nextOffset path (toolReadFile readFileLines readBytes site path ((k + 1 : Nat) : Int) limit) =
          none ∧ rest = []) := by
  have hlimit := lineLimit_pos (requestedLines readFileLines limit)
  have hblocks := blocksOf_flatten (show 0 < 8192 by decide) site.content
  have hmem : ∀ line ∈ (fileLines site.content).drop k, line ∈ fileLines site.content :=
    fun line hline => List.mem_of_mem_drop hline
  obtain ⟨blocks, hleft, hskips⟩ := (@readLoop_skips readBytes _ (k + 1) hlimit k 0
    (blocksOf 8192 site.content) (by omega)).1
    (by rw [hblocks]; exact hk.le)
  rw [hblocks] at hleft
  have hshows : ShowsLines (k + 1) [] { total := 0 + k, blocks := blocks } :=
    ⟨rfl, rfl, by simp, fun h => absurd rfl h, fun _ => rfl, fun h => absurd rfl h, rfl⟩
  obtain ⟨g, rest, hsplit, hne, hpage⟩ := readLoop_page hread hlimit (Nat.succ_pos k)
    (fun line hline => hfit line (hmem line hline))
    (fun line hline => oneLine_of_mem_fileLines (hmem line hline)) hshows hleft
    (by simpa using hk)
  rw [List.nil_append] at hne hpage
  refine ⟨g, rest, hsplit, hne, ?_⟩
  rw [toolReadFile_eq hsite, hskips]
  generalize readLoop _ _ _ _ = r at hpage ⊢
  have hlength := List.length_pos_of_ne_nil hne
  have hlast := hpage.last
  have htotal := hpage.total
  rw [readAnswer]
  rw [if_neg (show r.total ≠ 0 by omega), if_neg (fun h => absurd h.1 (by omega)),
    nextOffset_pageHint _ _ _ _ rfl]
  refine ⟨hpage.text, ?_⟩
  rw [← Bool.or_assoc, Bool.or_self]
  split_ifs with hmore
  · exact .inl (congrArg some (by omega))
  · exact .inr ⟨rfl, hpage.whole (Bool.not_eq_true _ ▸ hmore)⟩

/-- Reading on from a line shows the lines from there. -/
theorem readOn_from (hread : 0 < readBytes) (hsite : Readable site) (path : Bytes)
    (hfit : ∀ line ∈ fileLines site.content, line.length ≤ readBytes) {k : Nat}
    (hk : k ≤ (fileLines site.content).length) :
    ∃ results, ReadOn (fun offset => toolReadFile readFileLines readBytes site path offset limit) path
      (k + 1) results ∧ results.flatMap pageLines = (fileLines site.content).drop k := by
  induction hn : (fileLines site.content).length - k using Nat.strongRecOn generalizing k with
  | ind n ih =>
    rcases Nat.lt_or_ge k (fileLines site.content).length with hlt | hge
    · obtain ⟨g, rest, hsplit, hne, hshown, hnext⟩ := @toolReadFile_page readFileLines limit readBytes
        site hread hsite path hfit k hlt
      have hlength := congrArg List.length hsplit
      rw [List.length_drop, List.length_append] at hlength
      have hpos := List.length_pos_of_ne_nil hne
      rcases hnext with hnext | ⟨hnext, rfl⟩
      · obtain ⟨results, hrest, hlines⟩ := @ih _ (by omega) (k + g.length) (by omega) rfl
        refine ⟨_, .more hnext hrest, ?_⟩
        rw [List.flatMap_cons, hshown, hlines, ← List.drop_drop, hsplit, List.drop_left]
      · refine ⟨_, .stop hnext, ?_⟩
        rw [List.flatMap_singleton, hshown, hsplit, List.append_nil]
    · obtain rfl := le_antisymm hk hge
      obtain ⟨hnext, hshown⟩ := @toolReadFile_end readFileLines limit readBytes site hsite path
      refine ⟨_, .stop hnext, ?_⟩
      rw [List.flatMap_singleton, hshown, List.drop_length]

end WholeFile

/-- **Reading on shows every line** of a text file once and in order, and ends. -/
theorem reads_every_line {readBytes : Nat} (hread : 0 < readBytes) {site : ReadSite}
    (hsite : Readable site) (hfit : ∀ line ∈ fileLines site.content, line.length ≤ readBytes)
    (readFileLines : Int) (path : Bytes) (limit : Int) :
    ∃ results, ReadOn (fun offset => toolReadFile readFileLines readBytes site path offset limit) path
      1 results ∧ results.flatMap pageLines = fileLines site.content :=
  readOn_from hread hsite path hfit (Nat.zero_le _)

/-- Two lines, the second as long as a page and without a newline. -/
theorem reads_every_line_long :
    ∃ results, ReadOn (fun offset => toolReadFile 1000 4 { content := lit "ab\ncdef" } (lit "a.txt")
      offset 1) (lit "a.txt") 1 results ∧ results.flatMap pageLines = [lit "ab", lit "cdef"] :=
  reads_every_line (by decide) ⟨rfl, by decide, rfl, rfl, rfl⟩ (by decide) 1000 (lit "a.txt") 1

end UAgent
