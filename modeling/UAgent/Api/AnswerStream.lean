/-
UAgent/Api/AnswerStream.lean

The answer as it streams in (`StreamCtx::EmitContent` and `Finish`,
src/include/api/stream.h): leading content is held back while it may still be
the start of another provider's tool call, and is then either shown or
suppressed for good.

The classifier (src/include/api/tool_protocol.h) is asked of growing
beginnings, and of the whole text at the end.  It never takes back what it has
said (`classify_append`), so how the answer is cut does not matter.
-/
import UAgent.Base.Bytes
import UAgent.Base.EarlyVerdict

namespace UAgent

open Bytes

/-! ### The classifier -/

/-- `LeadingToolMarkup`. -/
inductive LeadingToolMarkup
  | undecided
  | prose
  | call
deriving DecidableEq

/-- `tolower` in the "C" locale. -/
def toLower (c : UInt8) : UInt8 := if 0x41 ≤ c && c ≤ 0x5a then c + 0x20 else c

/-- `text.find_first_of(set, pos)`. -/
def findFirstOf (set text : Bytes) (pos : Nat) : Option Nat :=
  ((text.drop pos).findIdx? (· ∈ set)).map (pos + ·)

def isForeignToolCallOpener : Bytes → Bool
  | [] => false
  | front :: rest =>
    if front ≠ ch '<' && front ≠ ch '[' then false
    else
      let normalized := (rest.filter isAlnum).map toLower
      match find (lit "tool") normalized with
      | none => false
      | some tool => (find (lit "call") (normalized.drop (tool + 4))).isSome

def bracketedToolCallMarker (text : Bytes) (start : Nat) : Bool :=
  match findFirstOf (lit "]") text (start + 1) with
  | none => false
  | some close =>
    if close - start > 256 then false
    else if text[close + 1]? ≠ some (ch '\x7b') then false
    else isForeignToolCallOpener ((text.drop start).take (close - start + 1))

/-- No argument can still follow the closing bracket of `visible`. -/
def bracketOpen (visible : Bytes) : Bool :=
  match findFirstOf (lit "]") visible 0 with
  | none => true
  | some close => close + 1 ≥ visible.length

/-- `visible` starts with a `[`. -/
def classifyBracket (visible : Bytes) (complete : Bool) : LeadingToolMarkup :=
  if bracketedToolCallMarker visible 0 then .call
  else if !complete && bracketOpen visible && visible.length ≤ 257 then .undecided
  else .prose

/-- `visible` starts with a `<`, and its opener ends at `close`. -/
def classifyOpener (visible : Bytes) (close : Nat) : LeadingToolMarkup :=
  if close > 256 then .prose
  else if isForeignToolCallOpener (visible.take (close + 1)) then .call
  else .prose

/-- `visible` starts with a `<`. -/
def classifyAngle (visible : Bytes) (complete : Bool) : LeadingToolMarkup :=
  match findFirstOf (lit ">:\r\n") visible 1 with
  | some close => classifyOpener visible close
  | none =>
    if !complete && visible.length ≤ 257 then .undecided
    else classifyOpener visible (min visible.length 257)

def classifyLeadingToolMarkup (content : Bytes) (complete : Bool) : LeadingToolMarkup :=
  match content.dropWhile (· ∈ lit " \t\r\n") with
  | [] => if complete then .prose else .undecided
  | front :: rest =>
    if front = ch '[' then classifyBracket (front :: rest) complete
    else if front ≠ ch '<' then .prose
    else classifyAngle (front :: rest) complete

/-! ### What it says stands -/

section Append

variable {set text : Bytes} {pos i : Nat}

theorem findFirstOf_append (h : findFirstOf set text pos = some i) (more : Bytes) :
    findFirstOf set (text ++ more) pos = some i := by
  obtain ⟨j, hj, rfl⟩ := Option.map_eq_some_iff.mp h
  have hprefix : text.drop pos <+: (text ++ more).drop pos := by
    rw [List.drop_append]
    exact List.prefix_append _ _
  rw [findFirstOf, hprefix.findIdx?_eq_some hj]
  rfl

theorem lt_of_findFirstOf (h : findFirstOf set text pos = some i) : pos ≤ i ∧ i < text.length := by
  obtain ⟨j, hj, rfl⟩ := Option.map_eq_some_iff.mp h
  obtain ⟨hlt, -⟩ := List.findIdx?_eq_some_iff_getElem.mp hj
  rw [List.length_drop] at hlt
  omega

/-- What is found only when the text goes on lies in what was added. -/
theorem le_of_findFirstOf_append {more : Bytes} (hnone : findFirstOf set text pos = none)
    (h : findFirstOf set (text ++ more) pos = some i) : text.length ≤ i := by
  obtain ⟨j, hj, rfl⟩ := Option.map_eq_some_iff.mp h
  obtain ⟨hlt, hmem, -⟩ := List.findIdx?_eq_some_iff_getElem.mp hj
  by_contra hlen
  have hall := List.findIdx?_eq_none_iff.mp (Option.map_eq_none_iff.mp hnone)
  have hin : pos + j < text.length := by omega
  have hget : ((text ++ more).drop pos)[j] = text[pos + j] := by
    rw [List.getElem_drop, List.getElem_append_left hin]
  have hold := hall text[pos + j] (List.mem_drop_iff_getElem.mpr ⟨j, by omega, rfl⟩)
  rw [hget] at hmem
  simp [hold] at hmem

/-- A search that passes the first byte over finds the same from the second on. -/
theorem findFirstOf_zero_cons {front : UInt8} (h : front ∉ set) (rest : Bytes) :
    findFirstOf set (front :: rest) 0 = findFirstOf set (front :: rest) 1 := by
  simp [findFirstOf, List.findIdx?_cons, h, Nat.add_comm, Function.comp_def]

end Append

/-- Past the longest marker the closing bracket comes too late. -/
theorem bracketedToolCallMarker_eq_false {text : Bytes}
    (h : ∀ close, findFirstOf (lit "]") text 1 = some close → close > 256) :
    bracketedToolCallMarker text 0 = false := by
  unfold bracketedToolCallMarker
  cases hclose : findFirstOf (lit "]") text (0 + 1) with
  | none => rfl
  | some close => simp [h close hclose]

/-- A marker whose next byte has come in is told by what has come in. -/
theorem bracketedToolCallMarker_append {text : Bytes} {close : Nat}
    (h : findFirstOf (lit "]") text 1 = some close) (hnext : close + 1 < text.length) (more : Bytes) :
    bracketedToolCallMarker (text ++ more) 0 = bracketedToolCallMarker text 0 := by
  have happend : findFirstOf (lit "]") (text ++ more) (0 + 1) = some close := findFirstOf_append h more
  have htext : findFirstOf (lit "]") text (0 + 1) = some close := h
  simp only [bracketedToolCallMarker, happend, htext, List.drop_zero, Nat.sub_zero]
  rw [List.getElem?_append_left hnext, List.take_append_of_le_length hnext.le]

/-- Without a byte after the bracket there is no marker yet. -/
theorem bracketedToolCallMarker_of_open {rest : Bytes} (h : bracketOpen (ch '[' :: rest) = true) :
    bracketedToolCallMarker (ch '[' :: rest) 0 = false := by
  unfold bracketOpen at h
  rw [findFirstOf_zero_cons (by decide)] at h
  unfold bracketedToolCallMarker
  cases hclose : findFirstOf (lit "]") (ch '[' :: rest) (0 + 1) with
  | none => rfl
  | some close =>
    rw [hclose] at h
    have hnone : (ch '[' :: rest)[close + 1]? = none :=
      List.getElem?_eq_none (of_decide_eq_true h)
    simp [hnone]

/-- A bracket that stays open so long is prose. -/
theorem classifyBracket_long {rest : Bytes} (hopen : bracketOpen (ch '[' :: rest) = true)
    (hlong : (ch '[' :: rest).length > 257) (more : Bytes) (complete : Bool) :
    classifyBracket (ch '[' :: rest ++ more) complete = .prose := by
  have hmarker : bracketedToolCallMarker (ch '[' :: rest ++ more) 0 = false := by
    refine bracketedToolCallMarker_eq_false fun close hclose => ?_
    have hzero : findFirstOf (lit "]") (ch '[' :: rest) 0 = findFirstOf (lit "]") (ch '[' :: rest) 1 :=
      findFirstOf_zero_cons (by decide) rest
    unfold bracketOpen at hopen
    cases hold : findFirstOf (lit "]") (ch '[' :: rest) 1 with
    | none =>
      have := le_of_findFirstOf_append hold hclose
      omega
    | some old =>
      rw [findFirstOf_append hold more, Option.some.injEq] at hclose
      rw [hzero, hold] at hopen
      have := of_decide_eq_true hopen
      omega
  have hlen : ¬(ch '[' :: rest ++ more).length ≤ 257 := by
    rw [List.length_append]
    omega
  simp only [classifyBracket, hmarker, decide_eq_false hlen, Bool.and_false, Bool.false_eq_true,
    ↓reduceIte]

theorem classifyBracket_append {rest : Bytes} {v : LeadingToolMarkup}
    (h : classifyBracket (ch '[' :: rest) false = v) (hv : v ≠ .undecided) (more : Bytes)
    (complete : Bool) : classifyBracket (ch '[' :: rest ++ more) complete = v := by
  subst h
  by_cases hopen : bracketOpen (ch '[' :: rest) = true
  · -- the closing bracket, if there is one, is the last byte: the length has decided
    have hlong : (ch '[' :: rest).length > 257 := by
      by_contra hshort
      refine hv ?_
      simp only [classifyBracket, bracketedToolCallMarker_of_open hopen, hopen,
        decide_eq_true (Nat.not_lt.mp hshort), Bool.not_false, Bool.and_self, Bool.false_eq_true,
        ↓reduceIte]
    have hself := classifyBracket_long hopen hlong [] false
    rw [List.append_nil] at hself
    rw [hself]
    exact classifyBracket_long hopen hlong more complete
  · obtain ⟨close, hclose, hnext⟩ : ∃ close, findFirstOf (lit "]") (ch '[' :: rest) 0 = some close ∧
        close + 1 < (ch '[' :: rest).length := by
      unfold bracketOpen at hopen
      cases hfound : findFirstOf (lit "]") (ch '[' :: rest) 0 with
      | none => simp [hfound] at hopen
      | some close => exact ⟨close, rfl, by simpa [hfound] using hopen⟩
    have hopen' : bracketOpen (ch '[' :: rest ++ more) = false := by
      simp only [bracketOpen, findFirstOf_append hclose more]
      exact decide_eq_false (by rw [List.length_append]; omega)
    rw [findFirstOf_zero_cons (by decide)] at hclose
    simp only [classifyBracket, bracketedToolCallMarker_append hclose hnext more, hopen', hopen,
      Bool.and_false, Bool.false_and]

/-- Past the longest marker there is only prose. -/
theorem classifyOpener_late {close : Nat} (h : close > 256) (text : Bytes) :
    classifyOpener text close = .prose := if_pos h

theorem classifyAngle_append {visible : Bytes} {v : LeadingToolMarkup}
    (h : classifyAngle visible false = v) (hv : v ≠ .undecided) (more : Bytes) (complete : Bool) :
    classifyAngle (visible ++ more) complete = v := by
  subst h
  unfold classifyAngle at hv ⊢
  cases hclose : findFirstOf (lit ">:\r\n") visible 1 with
  | some close =>
    have hlt := (lt_of_findFirstOf hclose).2
    simp only [findFirstOf_append hclose, classifyOpener]
    rw [List.take_append_of_le_length hlt]
  | none =>
    have hlong : visible.length > 257 := by
      by_contra hshort
      simp [hclose, Nat.not_lt.mp hshort] at hv
    have hold : ¬visible.length ≤ 257 := Nat.not_le.mpr hlong
    have hnew : ¬(visible ++ more).length ≤ 257 := by
      rw [List.length_append]
      omega
    simp only [decide_eq_false hold, decide_eq_false hnew, Bool.and_false, Bool.false_eq_true,
      ↓reduceIte]
    rw [classifyOpener_late (by omega) visible]
    cases hlater : findFirstOf (lit ">:\r\n") (visible ++ more) 1 with
    | none => exact classifyOpener_late (by omega) _
    | some close =>
      have := le_of_findFirstOf_append hclose hlater
      exact classifyOpener_late (by omega) _

/-- What the classifier says of a beginning it says of every text that goes on
from it, complete or not. -/
theorem classify_append {content : Bytes} {v : LeadingToolMarkup}
    (h : classifyLeadingToolMarkup content false = v) (hv : v ≠ .undecided) (more : Bytes)
    (complete : Bool) : classifyLeadingToolMarkup (content ++ more) complete = v := by
  unfold classifyLeadingToolMarkup at h ⊢
  rw [List.dropWhile_append]
  cases hvisible : content.dropWhile (· ∈ lit " \t\r\n") with
  | nil =>
    rw [hvisible] at h
    exact absurd h.symm hv
  | cons front rest =>
    rw [hvisible] at h
    simp only [List.isEmpty_cons, Bool.false_eq_true, ↓reduceIte, List.cons_append] at h ⊢
    split_ifs at h ⊢ with hbracket hangle
    · subst hbracket
      exact classifyBracket_append h hv more complete
    · exact h
    · exact classifyAngle_append h hv more complete

/-! ### The stream -/

/-- `Show`: leading content is held back while it could still be a call. -/
inductive Showing
  | undecided
  | print
  | suppress
deriving DecidableEq

/-- An answer delta: its text, and where in the answer it stands. -/
structure AnswerDelta where
  text : Bytes
  offset : Nat
deriving DecidableEq

/-- What `StreamCtx` keeps of the answer, and the deltas it has emitted. -/
structure AnswerStream where
  content : Bytes := []
  suppressed : Bool := false
  showing : Showing := .undecided
  emitted : List AnswerDelta := []
deriving DecidableEq

namespace AnswerStream

def outputText (s : AnswerStream) (value : Bytes) : AnswerStream :=
  { s with emitted := s.emitted ++ [⟨value, s.content.length - value.length⟩] }

def emitContent (s : AnswerStream) (c : Bytes) : AnswerStream :=
  let s := { s with content := s.content ++ c }
  match s.showing with
  | .print => s.outputText c
  | .suppress => s
  | .undecided =>
    match classifyLeadingToolMarkup s.content false with
    | .prose => { s with showing := .print }.outputText s.content
    | .call => { s with showing := .suppress, suppressed := true }
    | .undecided => s

/-- The last step of `HandleEvent`: events without content emit nothing. -/
def handleContent (s : AnswerStream) (c : Bytes) : AnswerStream :=
  if c.isEmpty then s else s.emitContent c

/-- `Finish`, where the parser may hand over the last events. -/
def finish (s : AnswerStream) (last : List Bytes) : AnswerStream :=
  let s := last.foldl handleContent s
  if s.showing ≠ .undecided ∨ s.content.isEmpty then s
  else if classifyLeadingToolMarkup s.content true = .call then
    { s with showing := .suppress, suppressed := true }
  else { s with showing := .print }.outputText s.content

/-- A whole response: the content of its events, and of those `Finish` finds. -/
def streamed (deltas last : List Bytes) : AnswerStream :=
  (deltas.foldl handleContent {}).finish last

/-- A reader of the deltas takes each of them at the end of what it has. -/
def placed (emitted : List AnswerDelta) : Option Bytes :=
  emitted.foldlM (fun text delta =>
    if delta.offset = text.length then some (text ++ delta.text) else none) []

/-! ### Held back, shown or suppressed -/

/-- The classifier, asked of beginnings and of the whole. -/
def leadingMarkup : EarlyVerdict UInt8 LeadingToolMarkup where
  early content :=
    if classifyLeadingToolMarkup content false = .undecided then none
    else some (classifyLeadingToolMarkup content false)
  final content := classifyLeadingToolMarkup content true
  early_append more h := by
    split_ifs at h with hv
    cases h
    rw [classify_append rfl hv more false, if_neg hv]
  final_of_early {content} _ h := by
    split_ifs at h with hv
    cases h
    simpa using classify_append rfl hv [] true

/-- What the stream has decided. -/
def verdict : Showing → Option LeadingToolMarkup
  | .undecided => none
  | .print => some .prose
  | .suppress => some .call

/-- The stream as a watch on its content. -/
def watch (s : AnswerStream) : EarlyVerdict.Watch UInt8 LeadingToolMarkup :=
  ⟨s.content, verdict s.showing⟩

/-- What was emitted and flagged goes with what was decided. -/
structure InStep (s : AnswerStream) : Prop where
  shown : s.showing = .print → placed s.emitted = some s.content
  silent : s.showing ≠ .print → s.emitted = []
  flagged : s.suppressed = true ↔ s.showing = .suppress

theorem inStep_start : InStep {} where
  shown h := by cases h
  silent _ := rfl
  flagged := by simp

theorem placed_append {emitted : List AnswerDelta} {text : Bytes} (h : placed emitted = some text)
    (value : Bytes) : placed (emitted ++ [⟨value, text.length⟩]) = some (text ++ value) := by
  rw [placed] at h ⊢
  simp [List.foldlM_append, h]

/-- The content so far is emitted at once. -/
theorem placed_held (content : Bytes) : placed [⟨content, content.length - content.length⟩] = some content := by
  simp [placed]

/-- A delta is one step of the watch. -/
theorem watch_handleContent {s : AnswerStream} (h : s.watch.UpToDate leadingMarkup) (c : Bytes) :
    (s.handleContent c).watch = s.watch.add leadingMarkup c := by
  cases c with
  | nil => exact (h.add_nil leadingMarkup).symm
  | cons b c =>
    obtain ⟨content, suppressed, showing, emitted⟩ := s
    cases showing with
    | print => rfl
    | suppress => rfl
    | undecided =>
      cases hv : classifyLeadingToolMarkup (content ++ b :: c) false <;>
        simp [handleContent, emitContent, hv, watch, verdict, EarlyVerdict.Watch.add, leadingMarkup,
          outputText]

theorem InStep.handleContent {s : AnswerStream} (h : s.InStep) (c : Bytes) :
    (s.handleContent c).InStep := by
  cases c with
  | nil => exact h
  | cons b c =>
    obtain ⟨content, suppressed, showing, emitted⟩ := s
    cases showing with
    | print =>
      refine ⟨fun _ => ?_, fun hp => absurd rfl hp, h.flagged⟩
      have hlen : (content ++ b :: c).length - (b :: c).length = content.length := by simp
      show placed (emitted ++ [⟨b :: c, (content ++ b :: c).length - (b :: c).length⟩]) = _
      rw [hlen]
      exact placed_append (h.shown rfl) (b :: c)
    | suppress => exact ⟨fun hp => (by cases hp), h.silent, h.flagged⟩
    | undecided =>
      obtain rfl : emitted = [] := h.silent (by simp)
      have hflag : suppressed = false := by
        have := h.flagged
        simpa using this
      subst hflag
      simp only [AnswerStream.handleContent, emitContent, List.isEmpty_cons, Bool.false_eq_true,
        ↓reduceIte]
      cases classifyLeadingToolMarkup (content ++ b :: c) false with
      | undecided => exact ⟨fun hp => (by cases hp), fun _ => rfl, by simp⟩
      | prose => exact ⟨fun _ => placed_held _, fun hp => absurd rfl hp, by simp [outputText]⟩
      | call => exact ⟨fun hp => (by cases hp), fun _ => rfl, by simp⟩

theorem InStep.handleAll (deltas : List Bytes) {s : AnswerStream} (h : s.InStep)
    (hnow : s.watch.UpToDate leadingMarkup) :
    (deltas.foldl AnswerStream.handleContent s).watch =
        deltas.foldl (EarlyVerdict.Watch.add leadingMarkup) s.watch ∧
      (deltas.foldl AnswerStream.handleContent s).InStep := by
  induction deltas generalizing s with
  | nil => exact ⟨rfl, h⟩
  | cons c deltas ih =>
    have hstep := watch_handleContent hnow c
    rw [List.foldl_cons, List.foldl_cons, ← hstep]
    exact ih (h.handleContent c) (hstep ▸ hnow.add leadingMarkup c)

/-- The end of the stream: what is still held back is decided by the whole. -/
theorem InStep.finish_nil {s : AnswerStream} (h : s.InStep) (hnow : s.watch.UpToDate leadingMarkup) :
    (s.finish []).content = s.content ∧
      ((s.finish []).suppressed = true ↔ classifyLeadingToolMarkup s.content true = .call) ∧
      if (s.finish []).suppressed = true then (s.finish []).emitted = []
      else placed (s.finish []).emitted = some s.content := by
  have hclose := hnow.close_eq leadingMarkup
  obtain ⟨content, suppressed, showing, emitted⟩ := s
  have hflag := h.flagged
  cases showing with
  | print =>
    have hfinal : LeadingToolMarkup.prose = classifyLeadingToolMarkup content true := hclose
    have hopen : suppressed = false := by simpa using hflag
    subst hopen
    exact ⟨rfl, by simp [finish, ← hfinal], by simpa [finish] using h.shown rfl⟩
  | suppress =>
    have hfinal : LeadingToolMarkup.call = classifyLeadingToolMarkup content true := hclose
    have hshut : suppressed = true := by simpa using hflag
    subst hshut
    exact ⟨rfl, by simp [finish, ← hfinal], by simpa [finish] using h.silent (by simp)⟩
  | undecided =>
    obtain rfl : emitted = [] := h.silent (by simp)
    have hopen : suppressed = false := by simpa using hflag
    subst hopen
    cases content with
    | nil => exact ⟨rfl, by decide, by decide⟩
    | cons b content =>
      by_cases hcall : classifyLeadingToolMarkup (b :: content) true = .call
      · simp [finish, hcall]
      · simp [finish, hcall, outputText, placed]

end AnswerStream

open AnswerStream in
/-- However the provider cuts an answer into deltas, it is shown whole, or not
at all and flagged; which of the two is the classifier's verdict on the whole. -/
theorem answer_shown_or_suppressed (deltas last : List Bytes) :
    (streamed deltas last).content = (deltas ++ last).flatten ∧
      ((streamed deltas last).suppressed = true ↔
        classifyLeadingToolMarkup (deltas ++ last).flatten true = .call) ∧
      if (streamed deltas last).suppressed = true then (streamed deltas last).emitted = []
      else placed (streamed deltas last).emitted = some (deltas ++ last).flatten := by
  have hstart : (watch {}).UpToDate leadingMarkup := EarlyVerdict.Watch.upToDate_start leadingMarkup
  obtain ⟨hrun, hstep⟩ := inStep_start.handleAll (deltas ++ last) hstart
  obtain ⟨hnow, hseen⟩ := hstart.addAll leadingMarkup (deltas ++ last)
  have hcontent : ((deltas ++ last).foldl handleContent {}).content = (deltas ++ last).flatten :=
    (congrArg EarlyVerdict.Watch.seen hrun).trans hseen
  have hend := hstep.finish_nil (hrun ▸ hnow)
  have hall : streamed deltas last = ((deltas ++ last).foldl handleContent {}).finish [] := by
    rw [streamed, finish, finish, List.foldl_append]
    rfl
  rw [hall]
  rwa [hcontent] at hend

open AnswerStream in
/-- A marker cut in two is still held back, and then suppressed. -/
example : (streamed [lit " <to", lit "ol_call>"] [lit "x"]).emitted = [] ∧
    (streamed [lit " <to", lit "ol_call>"] [lit "x"]).suppressed = true := by decide

end UAgent
