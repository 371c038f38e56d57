/-
UAgent/Transport/Sse.lean

The server-sent-events parser (src/transport/sse.cc).  `Feed` takes the
bytes as they arrive and copies whole runs between line ends; between two
calls it carries an unfinished line, an unfinished event and a CR that may
still be followed by its LF.

`feedByte` is the parser that takes one byte at a time.  Main result:
`feedAll_chunks`: what the parser yields depends on the bytes and not on how
they were cut.  The two parsers agree in everything but the line a failed
parser was reading, where a whole run is dropped and single bytes are kept
up to the limit (`Agrees`).
-/
import UAgent.Base.JsonText
import Mathlib.Data.List.TakeWhile

namespace UAgent

open Bytes

/-! ### The parser -/

structure SseEvent where
  event : Bytes
  data : Bytes
  id : Bytes
deriving DecidableEq

structure SseParser where
  maxEventBytes : Nat
  pendingCr : Bool := false
  hasData : Bool := false
  line : Bytes := []
  event : Bytes := []
  data : Bytes := []
  lastEventId : Bytes := []
  events : List SseEvent := []
  error : Bytes := []
deriving DecidableEq

namespace SseParser

def kMaxPendingEvents : Nat := 4096

/-- `Append`: the text grown by the value, unless that passes the limit (zero
is no limit). -/
def append (p : SseParser) (target value : Bytes) : Option Bytes :=
  if p.maxEventBytes > 0 ∧
      (target.length > p.maxEventBytes ∨ value.length > p.maxEventBytes - target.length) then none
  else some (target ++ value)

/-- What `Append` leaves when the limit is passed. -/
def exceeded (p : SseParser) : SseParser :=
  { p with
    error := lit "SSE event exceeded " ++ Json.decimal p.maxEventBytes ++ lit " bytes" }

/-- `ResetEvent`. -/
def resetEvent (p : SseParser) : SseParser := { p with event := [], data := [], hasData := false }

/-- `Dispatch`: an event with data is complete. -/
def dispatch (p : SseParser) : SseParser × Bool :=
  let p := { p with line := [] }
  if !p.hasData then ({ p with event := [] }, true)
  else if p.events.length ≥ kMaxPendingEvents then
    ({ p with error := lit "too many pending SSE events" }, false)
  else
    let event := if p.event = [] then lit "message" else p.event
    (resetEvent { p with events := p.events ++ [⟨event, p.data, p.lastEventId⟩] }, true)

/-- The name of the field a line sets: all of it up to the first ':'. -/
def fieldOf (line : Bytes) : Bytes := untilFirst (ch ':') line

/-- The value behind the first ':', without the blank that may follow it. -/
def valueOf (line : Bytes) : Bytes :=
  match line.drop ((fieldOf line).length + 1) with
  | [] => []
  | c :: value => if c = ch ' ' then value else c :: value

/-- The `data` field: another line of data. -/
def appendData (p : SseParser) (value : Bytes) : SseParser × Bool :=
  match if p.hasData then p.append p.data [0x0a] else some p.data with
  | none => (exceeded { p with hasData := false }, false)
  | some data =>
    match p.append data value with
    | none => (exceeded { p with data := data, hasData := false }, false)
    | some data => ({ p with data := data, hasData := true }, true)

/-- The fields that are cleared and set. -/
def setEvent (p : SseParser) (value : Bytes) : SseParser × Bool :=
  match p.append [] value with
  | none => (exceeded { p with event := [] }, false)
  | some event => ({ p with event := event }, true)

def setLastEventId (p : SseParser) (value : Bytes) : SseParser × Bool :=
  match p.append [] value with
  | none => (exceeded { p with lastEventId := [] }, false)
  | some id => ({ p with lastEventId := id }, true)

/-- `ProcessLine`. -/
def processLine (p : SseParser) : SseParser × Bool :=
  match p.line with
  | [] => p.dispatch
  | front :: _ =>
    if front = ch ':' then ({ p with line := [] }, true)
    else
      let field := fieldOf p.line
      let value := valueOf p.line
      let done :=
        if field = lit "data" then p.appendData value
        else if field = lit "event" then p.setEvent value
        else if field = lit "id" ∧ 0 ∉ value then p.setLastEventId value
        else (p, true)
      ({ done.1 with line := [] }, done.2)

/-- A run of bytes without a line end joins the line. -/
def appendLine (p : SseParser) (chunk : Bytes) : SseParser × Bool :=
  if chunk = [] then (p, true)
  else
    match p.append p.line chunk with
    | none => (p.exceeded, false)
    | some line => ({ p with line := line }, true)

/-- What `find_first_of("\r\n")` looks for. -/
def endsLine (c : UInt8) : Bool := c = 0x0d || c = 0x0a

/-- The line a held CR ends. -/
def endHeld (p : SseParser) : SseParser × Bool :=
  if p.pendingCr then processLine { p with pendingCr := false } else (p, true)

/-- The loop of `Feed`. -/
def feedLoop (p : SseParser) (bytes : Bytes) : SseParser × Bool :=
  match bytes with
  | [] => (p, true)
  | front :: rest =>
    let held := p.endHeld
    if !held.2 then held
    else if p.pendingCr ∧ front = 0x0a then feedLoop held.1 rest
    else
      let appended := held.1.appendLine ((front :: rest).takeWhile (!endsLine ·))
      if !appended.2 then appended
      else
        match _h : (front :: rest).dropWhile (!endsLine ·) with
        | [] => appended
        | c :: after =>
          if c = 0x0d then feedLoop { appended.1 with pendingCr := true } after
          else
            let done := appended.1.processLine
            if !done.2 then done else feedLoop done.1 after
termination_by bytes.length
decreasing_by
  · exact Nat.lt_succ_self _
  all_goals
    have hle := (List.dropWhile_suffix (l := front :: rest) (!endsLine ·)).length_le
    rw [_h] at hle
    exact hle

/-- `Feed`. -/
def feed (p : SseParser) (bytes : Bytes) : SseParser × Bool :=
  if p.error ≠ [] then (p, false) else p.feedLoop bytes

/-- `Finish`: a held CR ends its line, and so does any unterminated text. -/
def finish (p : SseParser) : SseParser × Bool :=
  if p.error ≠ [] then (p, false)
  else
    let done :=
      if p.pendingCr ∨ p.line ≠ [] then processLine { p with pendingCr := false } else (p, true)
    if !done.2 then done else done.1.dispatch

/-! ### One byte at a time -/

/-- The parser that takes one byte. -/
def feedByte (p : SseParser) (c : UInt8) : SseParser :=
  if p.error ≠ [] then p
  else
    let held := p.endHeld
    if !held.2 then held.1
    else if p.pendingCr ∧ c = 0x0a then held.1
    else if c = 0x0d then { held.1 with pendingCr := true }
    else if c = 0x0a then held.1.processLine.1
    else (held.1.appendLine [c]).1

/-- Everything but the line a failed parser was reading. -/
def Agrees (p q : SseParser) : Prop :=
  p = q ∨ (p.error ≠ [] ∧ p.error = q.error ∧ p.events = q.events)

theorem Agrees.refl (p : SseParser) : Agrees p p := .inl rfl

theorem Agrees.trans {p q r : SseParser} (h : Agrees p q) (h' : Agrees q r) : Agrees p r := by
  rcases h with rfl | ⟨hne, herror, hevents⟩
  · exact h'
  · rcases h' with rfl | ⟨-, herror', hevents'⟩
    · exact .inr ⟨hne, herror, hevents⟩
    · exact .inr ⟨hne, herror.trans herror', hevents.trans hevents'⟩

/-- What a caller sees is the same. -/
theorem Agrees.observed {p q : SseParser} (h : Agrees p q) :
    p.events = q.events ∧ p.error = q.error := by
  rcases h with rfl | ⟨-, herror, hevents⟩
  · exact ⟨rfl, rfl⟩
  · exact ⟨hevents, herror⟩

/-! ### A step fails exactly when it leaves an error -/

/-- A step from a parser without error: it says `false` exactly when there is
an error now. -/
def Reports (r : SseParser × Bool) : Prop := r.2 = true ↔ r.1.error = []

theorem exceeded_error_ne_nil (p : SseParser) : p.exceeded.error ≠ [] := by
  simp [exceeded, show lit "SSE event exceeded " ≠ [] by decide]

theorem reports_exceeded (p : SseParser) : Reports (p.exceeded, false) :=
  iff_of_false Bool.false_ne_true p.exceeded_error_ne_nil

theorem reports_dispatch {p : SseParser} (h : p.error = []) : Reports p.dispatch := by
  simp only [dispatch]
  split_ifs
  · exact iff_of_true rfl h
  · refine iff_of_false Bool.false_ne_true ?_
    show lit "too many pending SSE events" ≠ []
    decide
  all_goals exact iff_of_true rfl h

theorem reports_appendData {p : SseParser} (h : p.error = []) (value : Bytes) :
    Reports (p.appendData value) := by
  unfold appendData
  split
  · exact reports_exceeded _
  · split
    · exact reports_exceeded _
    · exact iff_of_true rfl h

theorem reports_setEvent {p : SseParser} (h : p.error = []) (value : Bytes) :
    Reports (p.setEvent value) := by
  unfold setEvent
  split
  · exact reports_exceeded _
  · exact iff_of_true rfl h

theorem reports_setLastEventId {p : SseParser} (h : p.error = []) (value : Bytes) :
    Reports (p.setLastEventId value) := by
  unfold setLastEventId
  split
  · exact reports_exceeded _
  · exact iff_of_true rfl h

theorem reports_processLine {p : SseParser} (h : p.error = []) : Reports p.processLine := by
  unfold processLine
  split
  · exact reports_dispatch h
  · split_ifs
    · exact iff_of_true rfl h
    · dsimp only
      split_ifs
      · exact reports_appendData h _
      · exact reports_setEvent h _
      · exact reports_setLastEventId h _
      · exact iff_of_true rfl h

theorem reports_endHeld {p : SseParser} (h : p.error = []) : Reports p.endHeld := by
  unfold endHeld
  split_ifs
  · exact reports_processLine h
  · exact iff_of_true rfl h

theorem reports_appendLine {p : SseParser} (h : p.error = []) (chunk : Bytes) :
    Reports (p.appendLine chunk) := by
  unfold appendLine
  split_ifs
  · exact iff_of_true rfl h
  · split
    · exact reports_exceeded _
    · exact iff_of_true rfl h

/-! ### Runs of bytes -/

/-- A failed parser takes no more bytes. -/
theorem foldl_feedByte_of_error {p : SseParser} (h : p.error ≠ []) (bytes : Bytes) :
    bytes.foldl feedByte p = p := by
  induction bytes with
  | nil => rfl
  | cons c bytes ih => rwa [List.foldl_cons, feedByte, if_pos h]

theorem append_eq (p : SseParser) (target value : Bytes) :
    p.append target value =
      if p.maxEventBytes > 0 ∧ target.length + value.length > p.maxEventBytes then none
      else some (target ++ value) := by
  unfold append
  congr 1
  refine propext (and_congr_right fun _ => ?_)
  omega

theorem appendLine_cons (p : SseParser) (c : UInt8) (chunk : Bytes) :
    p.appendLine (c :: chunk) =
      if p.maxEventBytes > 0 ∧ p.line.length + (c :: chunk).length > p.maxEventBytes then
        (p.exceeded, false)
      else ({ p with line := p.line ++ c :: chunk }, true) := by
  rw [appendLine, if_neg (List.cons_ne_nil c chunk), append_eq]
  split_ifs <;> rfl

/-- A byte inside a line joins it. -/
theorem feedByte_of_inLine {p : SseParser} (herror : p.error = []) (hcr : p.pendingCr = false)
    {c : UInt8} (hc : endsLine c = false) : p.feedByte c = (p.appendLine [c]).1 := by
  have hends : c ≠ 0x0d ∧ c ≠ 0x0a := by simpa [endsLine] using hc
  simp [feedByte, herror, endHeld, hcr, hends]

/-- A run may join in two parts. -/
theorem appendLine_append {p : SseParser} {c : UInt8}
    (h : ¬(p.maxEventBytes > 0 ∧ p.line.length + [c].length > p.maxEventBytes)) (chunk : Bytes) :
    Agrees (p.appendLine (c :: chunk)).1
      (({ p with line := p.line ++ [c] } : SseParser).appendLine chunk).1 := by
  rcases chunk with - | ⟨d, chunk⟩
  · rw [appendLine_cons, if_neg h]
    exact .refl _
  · have hlen : (p.line ++ [c]).length + (d :: chunk).length =
        p.line.length + (c :: d :: chunk).length := by
      simp only [List.length_append, List.length_cons, List.length_nil]
      omega
    rw [appendLine_cons, appendLine_cons]
    dsimp only
    rw [hlen]
    split_ifs
    · exact .inr ⟨p.exceeded_error_ne_nil, rfl, rfl⟩
    · exact .inl (by simp)

/-- **A run of bytes joins the line as its bytes do one by one.** -/
theorem appendLine_agrees {p : SseParser} (herror : p.error = []) (hcr : p.pendingCr = false)
    {chunk : Bytes} (hchunk : ∀ c ∈ chunk, endsLine c = false) :
    Agrees (p.appendLine chunk).1 (chunk.foldl feedByte p) := by
  induction chunk generalizing p with
  | nil => exact .refl p
  | cons c chunk ih =>
    have hc := hchunk c List.mem_cons_self
    have hrest : ∀ d ∈ chunk, endsLine d = false := fun d hd =>
      hchunk d (List.mem_cons_of_mem c hd)
    rw [List.foldl_cons, feedByte_of_inLine herror hcr hc]
    by_cases hover : p.maxEventBytes > 0 ∧ p.line.length + [c].length > p.maxEventBytes
    · -- The run is as far over the limit as its first byte.
      have hall : p.maxEventBytes > 0 ∧ p.line.length + (c :: chunk).length > p.maxEventBytes := by
        simp only [List.length_cons, List.length_nil] at hover ⊢
        omega
      rw [appendLine_cons, if_pos hall, appendLine_cons, if_pos hover,
        foldl_feedByte_of_error p.exceeded_error_ne_nil]
      exact .refl _
    · refine (appendLine_append hover chunk).trans ?_
      rw [appendLine_cons, if_neg hover]
      exact ih herror hcr hrest

/-! ### The loop -/

/-- What the bytes up to the next line end and that line end do. -/
theorem foldl_feedByte_line {p : SseParser} (herror : p.error = []) (hcr : p.pendingCr = false)
    {chunk : Bytes} (hchunk : ∀ c ∈ chunk, endsLine c = false) (rest : Bytes) :
    Agrees (rest.foldl feedByte (p.appendLine chunk).1) ((chunk ++ rest).foldl feedByte p) := by
  rw [List.foldl_append]
  rcases appendLine_agrees herror hcr hchunk with heq | ⟨hne, herr, hevents⟩
  · rw [heq]
    exact .refl _
  · rw [foldl_feedByte_of_error hne, foldl_feedByte_of_error (herr ▸ hne)]
    exact .inr ⟨hne, herr, hevents⟩

@[simp] theorem pendingCr_processLine (p : SseParser) : p.processLine.1.pendingCr = p.pendingCr := by
  unfold processLine
  split
  · unfold dispatch
    dsimp only
    split_ifs <;> rfl
  · split_ifs
    · rfl
    · dsimp only
      split_ifs
      · unfold appendData
        split
        · rfl
        · split <;> rfl
      · unfold setEvent
        split <;> rfl
      · unfold setLastEventId
        split <;> rfl
      · rfl

theorem pendingCr_endHeld (p : SseParser) : p.endHeld.1.pendingCr = false := by
  unfold endHeld
  split_ifs with hcr
  · rw [pendingCr_processLine]
  · exact Bool.not_eq_true _ ▸ hcr

theorem pendingCr_appendLine (p : SseParser) (chunk : Bytes) :
    (p.appendLine chunk).1.pendingCr = p.pendingCr := by
  cases chunk with
  | nil => rfl
  | cons c chunk =>
    rw [appendLine_cons]
    split_ifs <;> rfl

theorem endHeld_of_not {p : SseParser} (hcr : p.pendingCr = false) : p.endHeld = (p, true) := by
  simp [endHeld, hcr]

/-- The held CR is dealt with first, and an LF right after it is its own. -/
theorem feedLoop_cons (p : SseParser) (front : UInt8) (rest : Bytes) :
    p.feedLoop (front :: rest) =
      if !p.endHeld.2 then p.endHeld
      else if p.pendingCr ∧ front = 0x0a then p.endHeld.1.feedLoop rest
      else p.endHeld.1.feedLoop (front :: rest) := by
  have hcr := pendingCr_endHeld p
  rw [feedLoop, feedLoop.eq_2 p.endHeld.1, endHeld_of_not hcr, hcr]
  simp only [Bool.not_true, Bool.false_eq_true, false_and, if_false]

/-- The same for a byte alone. -/
theorem feedByte_held {p : SseParser} (herror : p.error = []) (c : UInt8) :
    p.feedByte c =
      if !p.endHeld.2 then p.endHeld.1
      else if p.pendingCr ∧ c = 0x0a then p.endHeld.1
      else p.endHeld.1.feedByte c := by
  have hcr := pendingCr_endHeld p
  have hreports := reports_endHeld herror
  by_cases hok : p.endHeld.2 = true
  · have herror' := hreports.mp hok
    simp only [feedByte, herror, herror', endHeld_of_not hcr, hcr, hok]
    simp
  · simp only [Bool.not_eq_true] at hok
    simp [feedByte, herror, hok]

/-- The loop without a held CR: a run, then the line end. -/
theorem feedLoop_run {p : SseParser} (hcr : p.pendingCr = false) (front : UInt8) (rest : Bytes) :
    p.feedLoop (front :: rest) =
      let appended := p.appendLine ((front :: rest).takeWhile (!endsLine ·))
      if !appended.2 then appended
      else
        match (front :: rest).dropWhile (!endsLine ·) with
        | [] => appended
        | c :: after =>
          if c = 0x0d then feedLoop { appended.1 with pendingCr := true } after
          else if !appended.1.processLine.2 then appended.1.processLine
          else feedLoop appended.1.processLine.1 after := by
  rw [feedLoop, endHeld_of_not hcr, hcr]
  simp only [Bool.not_true, Bool.false_eq_true, false_and, if_false]
  rcases (front :: rest).dropWhile (!endsLine ·) with - | ⟨c, after⟩ <;> rfl

theorem feedByte_cr {p : SseParser} (herror : p.error = []) (hcr : p.pendingCr = false) :
    p.feedByte 0x0d = { p with pendingCr := true } := by
  simp [feedByte, herror, endHeld_of_not hcr]

theorem feedByte_lf {p : SseParser} (herror : p.error = []) (hcr : p.pendingCr = false) :
    p.feedByte 0x0a = p.processLine.1 := by
  simp [feedByte, herror, endHeld_of_not hcr, hcr]

/-- One round of the loop without a held CR, the rest being given. -/
theorem feedLoop_run_agrees {p : SseParser} (herror : p.error = []) (hcr : p.pendingCr = false)
    (front : UInt8) (rest : Bytes)
    (ih : ∀ after : Bytes, after.length ≤ rest.length → ∀ q : SseParser, q.error = [] →
      Agrees (q.feedLoop after).1 (after.foldl feedByte q)) :
    Agrees (p.feedLoop (front :: rest)).1 ((front :: rest).foldl feedByte p) := by
  have hchunk : ∀ c ∈ (front :: rest).takeWhile (!endsLine ·), endsLine c = false := fun c hc => by
    simpa using List.mem_takeWhile_imp hc
  have hline := foldl_feedByte_line herror hcr hchunk ((front :: rest).dropWhile (!endsLine ·))
  rw [List.takeWhile_append_dropWhile] at hline
  refine Agrees.trans ?_ hline
  rw [feedLoop_run hcr]
  have hreports := reports_appendLine herror ((front :: rest).takeWhile (!endsLine ·))
  have hcr' := (pendingCr_appendLine p ((front :: rest).takeWhile (!endsLine ·))).trans hcr
  generalize p.appendLine ((front :: rest).takeWhile (!endsLine ·)) = appended at hreports hcr' ⊢
  obtain ⟨q, ok⟩ := appended
  cases ok with
  | false =>
    have hne : q.error ≠ [] := fun h => Bool.false_ne_true (hreports.mpr h)
    simp only [Bool.not_false, if_true]
    rw [foldl_feedByte_of_error hne]
    exact .refl q
  | true =>
    have hq : q.error = [] := hreports.mp rfl
    simp only [Bool.not_true, Bool.false_eq_true, if_false]
    rcases hrest : (front :: rest).dropWhile (!endsLine ·) with - | ⟨c, after⟩
    · exact .refl q
    · have hlen : after.length ≤ rest.length := by
        have hle := (List.dropWhile_suffix (l := front :: rest) (!endsLine ·)).length_le
        rw [hrest] at hle
        exact Nat.le_of_succ_le_succ hle
      have hends : endsLine c = true := by
        have hhead := List.head?_dropWhile_not (!endsLine ·) (front :: rest)
        rw [hrest] at hhead
        simpa using hhead
      dsimp only
      rw [List.foldl_cons]
      split_ifs with hc hdone
      · subst hc
        rw [feedByte_cr hq hcr']
        exact ih after hlen _ hq
      · obtain rfl : c = 0x0a := by simpa [endsLine, hc] using hends
        have hne : q.processLine.1.error ≠ [] := fun h => by
          rw [(reports_processLine hq).mpr h] at hdone
          exact Bool.false_ne_true hdone
        rw [feedByte_lf hq hcr', foldl_feedByte_of_error hne]
        exact .refl _
      · obtain rfl : c = 0x0a := by simpa [endsLine, hc] using hends
        rw [feedByte_lf hq hcr']
        refine ih after hlen _ ((reports_processLine hq).mp ?_)
        simpa using hdone

/-- **`Feed` is its bytes one by one.** -/
theorem feedLoop_agrees {p : SseParser} (herror : p.error = []) (bytes : Bytes) :
    Agrees (p.feedLoop bytes).1 (bytes.foldl feedByte p) := by
  induction hn : bytes.length using Nat.strong_induction_on generalizing p bytes with
  | _ n ih =>
    subst hn
    rcases bytes with - | ⟨front, rest⟩
    · rw [feedLoop]
      exact .refl p
    · have hreports := reports_endHeld herror
      have hheld := pendingCr_endHeld p
      rw [feedLoop_cons, List.foldl_cons, feedByte_held herror]
      generalize p.endHeld = held at hreports hheld ⊢
      obtain ⟨q, ok⟩ := held
      cases ok with
      | false =>
        -- The held line failed: nothing more is taken.
        have hne : q.error ≠ [] := fun h => Bool.false_ne_true (hreports.mpr h)
        simp only [Bool.not_false, if_true]
        rw [foldl_feedByte_of_error hne]
        exact .refl q
      | true =>
        have hq : q.error = [] := hreports.mp rfl
        simp only [Bool.not_true, Bool.false_eq_true, if_false]
        split_ifs with hlf
        · exact ih _ (Nat.lt_succ_self _) hq rest rfl
        · rw [← List.foldl_cons]
          exact feedLoop_run_agrees hq hheld front rest fun after hlen r hr =>
            ih after.length (Nat.lt_succ_of_le hlen) hr after rfl

/-! ### Chunks -/

/-- The parser after chunks fed one after another. -/
def feedAll (maxEventBytes : Nat) (chunks : List Bytes) : SseParser :=
  chunks.foldl (fun p chunk => (p.feed chunk).1) { maxEventBytes }

theorem feed_agrees {p q : SseParser} (h : Agrees p q) (bytes : Bytes) :
    Agrees (p.feed bytes).1 (bytes.foldl feedByte q) := by
  rcases h with rfl | ⟨hne, herror, hevents⟩
  · unfold feed
    split_ifs with hne
    · rw [foldl_feedByte_of_error hne]
      exact .refl p
    · exact feedLoop_agrees (not_not.mp hne) bytes
  · rw [feed, if_pos hne, foldl_feedByte_of_error (herror ▸ hne)]
    exact .inr ⟨hne, herror, hevents⟩

/-- However the bytes are cut, the parser agrees with the one that takes
them one by one. -/
theorem feedAll_agrees (maxEventBytes : Nat) (chunks : List Bytes) :
    Agrees (feedAll maxEventBytes chunks) (chunks.flatten.foldl feedByte { maxEventBytes }) := by
  rw [List.foldl_flatten, feedAll]
  suffices ∀ p q, Agrees p q → Agrees (chunks.foldl (fun p chunk => (p.feed chunk).1) p)
      (chunks.foldl (fun q chunk => chunk.foldl feedByte q) q) from this _ _ (.refl _)
  induction chunks with
  | nil => exact fun p q h => h
  | cons chunk chunks ih => exact fun p q h => ih _ _ (feed_agrees h chunk)

theorem Agrees.symm {p q : SseParser} (h : Agrees p q) : Agrees q p := by
  rcases h with rfl | ⟨hne, herror, hevents⟩
  · exact .refl p
  · exact .inr ⟨herror ▸ hne, herror.symm, hevents.symm⟩

/-- Parsers that agree finish alike. -/
theorem Agrees.finish {p q : SseParser} (h : Agrees p q) :
    Agrees p.finish.1 q.finish.1 ∧ p.finish.2 = q.finish.2 := by
  rcases h with rfl | ⟨hne, herror, hevents⟩
  · exact ⟨.refl _, rfl⟩
  · have hne' : q.error ≠ [] := herror ▸ hne
    rw [SseParser.finish, SseParser.finish, if_pos hne, if_pos hne']
    exact ⟨.inr ⟨hne, herror, hevents⟩, rfl⟩

/-- **What the parser yields does not depend on how the bytes were cut**: the
same events and the same error, before and after `Finish`. -/
theorem feedAll_chunks (maxEventBytes : Nat) (cs ds : List Bytes) (h : cs.flatten = ds.flatten) :
    let p := feedAll maxEventBytes cs
    let q := feedAll maxEventBytes ds
    p.events = q.events ∧ p.error = q.error ∧ p.finish.1.events = q.finish.1.events ∧
      p.finish.1.error = q.finish.1.error ∧ p.finish.2 = q.finish.2 := by
  intro p q
  have hagrees : Agrees p q := by
    have hds := feedAll_agrees maxEventBytes ds
    rw [← h] at hds
    exact (feedAll_agrees maxEventBytes cs).trans hds.symm
  obtain ⟨hevents, herror⟩ := hagrees.observed
  obtain ⟨hfinish, hok⟩ := hagrees.finish
  exact ⟨hevents, herror, hfinish.observed.1, hfinish.observed.2, hok⟩

/-- A CRLF cut in two ends one line as it does whole. -/
theorem feedAll_chunks_crlf :
    let p := feedAll 16 [lit "data: a\r", lit "\n\r", lit "\n"]
    let q := feedAll 16 [lit "data: a\r\n\r\n"]
    p.events = q.events ∧ p.error = q.error ∧ p.finish.1.events = q.finish.1.events ∧
      p.finish.1.error = q.finish.1.error ∧ p.finish.2 = q.finish.2 :=
  feedAll_chunks 16 [lit "data: a\r", lit "\n\r", lit "\n"] [lit "data: a\r\n\r\n"] (by decide)

end SseParser

end UAgent
