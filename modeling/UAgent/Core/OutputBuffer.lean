/-
UAgent/Core/OutputBuffer.lean

Bounded process output (src/include/core/output_buffer.h): the beginning and
the newest end of what a process wrote, and how many bytes were left out
between them.

Main result: `snapshot_describes_iff`.  What is kept depends on the text alone,
however it was cut into chunks, and describes it exactly; but the head is never
moved to a codepoint boundary, since the offset it is cut at is the end of what
is held.  So it holds whole codepoints if and only if one ends there.
-/
import UAgent.Core.Utf8

namespace UAgent

open Bytes

/-! ### The buffer -/

/-- `OmittedMarker`. -/
def omittedMarker (bytes : Nat) : Bytes :=
  lit "\n... [" ++ Json.decimal bytes ++ lit " bytes omitted] ...\n"

/-- `HeadTailBuffer`. -/
structure HeadTailBuffer where
  headBudget : Nat
  tailBudget : Nat
  head : Bytes := []
  tail : Bytes := []
  omitted : Nat := 0
deriving DecidableEq

namespace HeadTailBuffer

/-- The constructor. -/
def ofMax (maxBytes : Nat) : HeadTailBuffer where
  headBudget := maxBytes / 2
  tailBudget := maxBytes - maxBytes / 2

/-- `Push` of what the head does not take. -/
def pushTail (b : HeadTailBuffer) (bytes : Bytes) : HeadTailBuffer :=
  if bytes = [] then b
  else if b.tailBudget = 0 then { b with omitted := b.omitted + bytes.length }
  else if b.tailBudget ≤ bytes.length then
    { b with
      omitted := b.omitted + (b.tail.length + bytes.length - b.tailBudget)
      tail := bytes.drop (bytes.length - b.tailBudget) }
  -- The tail may run to twice its budget before its oldest bytes go.
  else if (b.tail ++ bytes).length > 2 * b.tailBudget then
    { b with
      tail := (b.tail ++ bytes).drop ((b.tail ++ bytes).length - b.tailBudget)
      omitted := b.omitted + ((b.tail ++ bytes).length - b.tailBudget) }
  else { b with tail := b.tail ++ bytes }

/-- `Push`. -/
def push (b : HeadTailBuffer) (bytes : Bytes) : HeadTailBuffer :=
  let taken := min (b.headBudget - b.head.length) bytes.length
  { b with head := b.head ++ bytes.take taken }.pushTail (bytes.drop taken)

/-- `Tail`. -/
def tailView (b : HeadTailBuffer) : Bytes := b.tail.drop (b.tail.length - b.tailBudget)

/-- The bytes left out of the view, those still held among them. -/
def unseen (b : HeadTailBuffer) : Nat := b.omitted + b.tail.length - b.tailView.length

/-- Where the head of a snapshot ends. -/
def headEnd (b : HeadTailBuffer) : Nat := utf8BoundaryBefore b.head b.head.length

/-- Where its tail starts. -/
def tailStart (b : HeadTailBuffer) : Nat :=
  utf8BoundaryAfter b.tail (b.tail.length - b.tailView.length)

def keptHead (b : HeadTailBuffer) : Bytes := b.head.take b.headEnd

def keptTail (b : HeadTailBuffer) : Bytes := b.tail.drop b.tailStart

/-- The count a snapshot gives. -/
def leftOut (b : HeadTailBuffer) : Nat :=
  b.unseen + (b.head.length - b.headEnd + b.tailStart - (b.tail.length - b.tailView.length))

/-- `Snapshot`. -/
def snapshot (b : HeadTailBuffer) : Bytes :=
  if b.head = [] ∧ b.tailView = [] ∧ b.unseen = 0 then []
  else if b.unseen = 0 then b.head ++ b.tailView
  else b.keptHead ++ omittedMarker b.leftOut ++ b.keptTail

/-- A buffer of a size after some chunks. -/
def ofChunks (maxBytes : Nat) (chunks : List Bytes) : HeadTailBuffer :=
  chunks.foldl push (ofMax maxBytes)

/-! ### What it holds -/

/-- The end of what the head did not take: all of it, or no less than the view
shows. -/
structure HoldsEnd (b : HeadTailBuffer) (rest : Bytes) : Prop where
  tail : b.tail = rest.drop b.omitted
  omitted_le : b.omitted ≤ rest.length
  full : b.omitted = 0 ∨ b.tailBudget ≤ b.tail.length
  bounded : b.tail.length ≤ 2 * b.tailBudget

/-- A buffer that holds a text: its beginning, and the end of the rest. -/
structure Holds (b : HeadTailBuffer) (text : Bytes) : Prop where
  head : b.head = text.take b.headBudget
  rest : b.HoldsEnd (text.drop b.headBudget)

variable {b : HeadTailBuffer} {text rest bytes : Bytes}

theorem HoldsEnd.length (h : b.HoldsEnd rest) : b.omitted + b.tail.length = rest.length := by
  have hle := h.omitted_le
  have htail := congrArg List.length h.tail
  rw [List.length_drop] at htail
  omega

theorem pushTail_frame (b : HeadTailBuffer) (bytes : Bytes) :
    (b.pushTail bytes).head = b.head ∧ (b.pushTail bytes).headBudget = b.headBudget ∧
      (b.pushTail bytes).tailBudget = b.tailBudget := by
  rw [pushTail]
  split_ifs <;> exact ⟨rfl, rfl, rfl⟩

theorem HoldsEnd.pushTail (h : b.HoldsEnd rest) (bytes : Bytes) :
    (b.pushTail bytes).HoldsEnd (rest ++ bytes) := by
  have hle := h.omitted_le
  have hlength := h.length
  have hbounded := h.bounded
  have happend : b.tail ++ bytes = (rest ++ bytes).drop b.omitted := by
    rw [List.drop_append_of_le_length hle, ← h.tail]
  rw [HeadTailBuffer.pushTail]
  split_ifs with hnil hzero hlong hcompact
  · rw [hnil, List.append_nil]
    exact h
  · refine ⟨?_, ?_, .inr (hzero ▸ Nat.zero_le _), hbounded⟩
    · have hempty : b.tail = [] := List.length_eq_zero_iff.mp (by omega)
      rw [hempty, List.length_nil] at hlength
      show b.tail = _
      rw [hempty, List.drop_eq_nil_of_le (by simp only [List.length_append]; omega)]
    · rw [List.length_append]
      exact Nat.add_le_add_right hle _
  · refine ⟨?_, ?_, .inr ?_, ?_⟩
    · show bytes.drop (bytes.length - b.tailBudget) = _
      have hcut : b.omitted + (b.tail.length + bytes.length - b.tailBudget) =
          rest.length + (bytes.length - b.tailBudget) := by omega
      rw [hcut, ← List.drop_drop, List.drop_left]
    all_goals
      simp only [List.length_append, List.length_drop]
      omega
  · rw [List.length_append] at hcompact
    refine ⟨?_, ?_, .inr ?_, ?_⟩
    · show (b.tail ++ bytes).drop _ = _
      rw [happend, List.drop_drop]
    all_goals
      simp only [List.length_append, List.length_drop]
      omega
  · rw [List.length_append] at hcompact
    refine ⟨happend, ?_, h.full.imp_right fun hfull => ?_, ?_⟩
    all_goals
      simp only [List.length_append]
      omega

/-- **A push appends** to the text that is held. -/
theorem Holds.push (h : b.Holds text) (bytes : Bytes) : (b.push bytes).Holds (text ++ bytes) := by
  have hhead : b.head.length = min b.headBudget text.length := by rw [h.head, List.length_take]
  have htaken : ∀ taken, taken = min (b.headBudget - b.head.length) bytes.length →
      bytes.take taken = bytes.take (b.headBudget - text.length) ∧
        bytes.drop taken = bytes.drop (b.headBudget - text.length) := by
    rintro taken rfl
    have hsame : b.headBudget - b.head.length = b.headBudget - text.length := by omega
    rw [hsame]
    exact ⟨List.take_eq_take_min.symm, List.drop_eq_drop_iff.mpr (by omega)⟩
  obtain ⟨htake, hdrop⟩ := htaken _ rfl
  rw [HeadTailBuffer.push]
  set filled : HeadTailBuffer :=
    { b with head := b.head ++ bytes.take (min (b.headBudget - b.head.length) bytes.length) }
  obtain ⟨hframe, hbudget, -⟩ := pushTail_frame filled
    (bytes.drop (min (b.headBudget - b.head.length) bytes.length))
  have hfilled : filled.HoldsEnd (text.drop b.headBudget) :=
    ⟨h.rest.tail, h.rest.omitted_le, h.rest.full, h.rest.bounded⟩
  refine ⟨?_, ?_⟩
  · rw [hframe, hbudget, List.take_append, ← htake, ← h.head]
  · rw [hbudget, List.drop_append, ← hdrop]
    exact hfilled.pushTail _

theorem holds_ofChunks (maxBytes : Nat) (chunks : List Bytes) :
    (ofChunks maxBytes chunks).Holds chunks.flatten ∧
      (ofChunks maxBytes chunks).headBudget = maxBytes / 2 ∧
      (ofChunks maxBytes chunks).tailBudget = maxBytes - maxBytes / 2 := by
  induction chunks using List.reverseRecOn with
  | nil => exact ⟨⟨List.take_nil.symm, ⟨List.drop_nil.symm, Nat.zero_le _, .inl rfl, Nat.zero_le _⟩⟩,
      rfl, rfl⟩
  | append_singleton chunks bytes ih =>
    obtain ⟨hholds, hhead, htail⟩ := ih
    have hpush : ofChunks maxBytes (chunks ++ [bytes]) = (ofChunks maxBytes chunks).push bytes := by
      rw [ofChunks, List.foldl_append]
      rfl
    obtain ⟨-, hframe, hframe'⟩ := pushTail_frame
      { ofChunks maxBytes chunks with
        head := (ofChunks maxBytes chunks).head ++ bytes.take (min
          ((ofChunks maxBytes chunks).headBudget - (ofChunks maxBytes chunks).head.length)
          bytes.length) }
      (bytes.drop (min
        ((ofChunks maxBytes chunks).headBudget - (ofChunks maxBytes chunks).head.length)
        bytes.length))
    rw [hpush, List.flatten_append, List.flatten_singleton]
    exact ⟨hholds.push bytes, hframe.trans hhead, hframe'.trans htail⟩

/-! ### What it shows -/

section Shows

variable {maxBytes : Nat}

/-- A buffer of a size that holds a text. -/
structure Keeps (b : HeadTailBuffer) (maxBytes : Nat) (text : Bytes) : Prop where
  holds : b.Holds text
  headBudget : b.headBudget = maxBytes / 2
  tailBudget : b.tailBudget = maxBytes - maxBytes / 2

theorem Keeps.unseen_eq (h : b.Keeps maxBytes text) : b.unseen = text.length - maxBytes := by
  have hlength := h.holds.rest.length
  have hfull := h.holds.rest.full
  have htail := h.tailBudget
  rw [List.length_drop, h.headBudget] at hlength
  rw [unseen, tailView, List.length_drop]
  omega

/-- A text that is no longer than the buffer is shown as it is. -/
theorem Keeps.snapshot_whole (h : b.Keeps maxBytes text) (hle : text.length ≤ maxBytes) :
    b.snapshot = text := by
  have hunseen : b.unseen = 0 := by
    rw [h.unseen_eq]
    omega
  have hshown : b.head ++ b.tailView = text := by
    have hlength := h.holds.rest.length
    have hfull := h.holds.rest.full
    have hbudget := h.tailBudget
    rw [List.length_drop, h.headBudget] at hlength
    have homitted : b.omitted = 0 := by omega
    have hview : b.tail.length - b.tailBudget = 0 := by omega
    rw [tailView, hview, List.drop_zero, h.holds.rest.tail, homitted, List.drop_zero, h.holds.head,
      List.take_append_drop]
  rw [snapshot, hunseen]
  split_ifs with hempty
  · rw [hempty.1, hempty.2.1] at hshown
    exact hshown
  · exact hshown
  · exact absurd rfl ‹¬(0 : Nat) = 0›

/-- Of a longer text the head is kept as it was cut. -/
theorem Keeps.keptHead_eq (h : b.Keeps maxBytes text) : b.keptHead = text.take (maxBytes / 2) := by
  have hend : b.headEnd = b.head.length := by
    rw [headEnd, utf8BoundaryBefore, min_self]
    exact stepBack_of_boundary (boundary_of_le le_rfl)
  rw [keptHead, hend, List.take_length, h.holds.head, h.headBudget]

/-- Where the tail of a longer text starts. -/
def tailFrom (maxBytes : Nat) (text : Bytes) : Nat :=
  utf8BoundaryAfter text (text.length - (maxBytes - maxBytes / 2))

theorem Keeps.tailStart_eq (h : b.Keeps maxBytes text) (hlt : maxBytes < text.length) :
    maxBytes / 2 + b.omitted + b.tailStart = tailFrom maxBytes text := by
  have hlength := h.holds.rest.length
  have hfull := h.holds.rest.full
  have htail := h.holds.rest.tail
  have hbudget := h.tailBudget
  rw [h.headBudget, List.drop_drop] at htail
  rw [List.length_drop, h.headBudget] at hlength
  have hview : b.tail.length - b.tailView.length = b.tail.length - b.tailBudget := by
    rw [tailView, List.length_drop]
    omega
  have hoffset : text.length - (maxBytes - maxBytes / 2) =
      maxBytes / 2 + b.omitted + (b.tail.length - b.tailBudget) := by omega
  rw [tailStart, tailFrom, hview, hoffset, htail, boundaryAfter_drop (by omega)]

theorem Keeps.keptTail_eq (h : b.Keeps maxBytes text) (hlt : maxBytes < text.length) :
    b.keptTail = text.drop (tailFrom maxBytes text) := by
  rw [keptTail, h.holds.rest.tail, h.headBudget, List.drop_drop, List.drop_drop,
    ← h.tailStart_eq hlt, Nat.add_assoc]

/-- Exactly the bytes between the two are left out. -/
theorem Keeps.leftOut_eq (h : b.Keeps maxBytes text) (hlt : maxBytes < text.length) :
    maxBytes / 2 + b.leftOut = tailFrom maxBytes text := by
  have hlength := h.holds.rest.length
  have hfull := h.holds.rest.full
  have hunseen := h.unseen_eq
  have hstart := h.tailStart_eq hlt
  have hbudget := h.tailBudget
  rw [List.length_drop, h.headBudget] at hlength
  have hend : b.headEnd = b.head.length := by
    rw [headEnd, utf8BoundaryBefore, min_self]
    exact stepBack_of_boundary (boundary_of_le le_rfl)
  have hoffset : text.length - (maxBytes - maxBytes / 2) ≤ tailFrom maxBytes text :=
    le_boundaryAfter (Nat.sub_le _ _)
  rw [unseen] at hunseen
  rw [leftOut, unseen, hunseen, hend]
  omega

/-- **What a snapshot is to be**: the same whatever the chunks, the text where
it fits, and else its head, the count of what is left out and its tail, each of
whole codepoints. -/
structure Describes (maxBytes : Nat) (chunks : List Bytes) : Prop where
  same : ∀ other : List Bytes, other.flatten = chunks.flatten →
    (ofChunks maxBytes other).snapshot = (ofChunks maxBytes chunks).snapshot
  whole : chunks.flatten.length ≤ maxBytes →
    (ofChunks maxBytes chunks).snapshot = chunks.flatten
  cut : maxBytes < chunks.flatten.length →
    (ofChunks maxBytes chunks).snapshot = (ofChunks maxBytes chunks).keptHead ++
      omittedMarker (ofChunks maxBytes chunks).leftOut ++ (ofChunks maxBytes chunks).keptTail
  head : maxBytes < chunks.flatten.length →
    (ofChunks maxBytes chunks).keptHead <+: chunks.flatten
  tail : maxBytes < chunks.flatten.length →
    (ofChunks maxBytes chunks).keptTail <:+ chunks.flatten
  count : maxBytes < chunks.flatten.length →
    (ofChunks maxBytes chunks).keptHead.length + (ofChunks maxBytes chunks).leftOut +
      (ofChunks maxBytes chunks).keptTail.length = chunks.flatten.length
  codepoints : maxBytes < chunks.flatten.length → ValidUtf8 chunks.flatten →
    ValidUtf8 (ofChunks maxBytes chunks).keptHead ∧ ValidUtf8 (ofChunks maxBytes chunks).keptTail

theorem keeps_ofChunks (maxBytes : Nat) (chunks : List Bytes) :
    (ofChunks maxBytes chunks).Keeps maxBytes chunks.flatten :=
  ⟨(holds_ofChunks maxBytes chunks).1, (holds_ofChunks maxBytes chunks).2.1,
    (holds_ofChunks maxBytes chunks).2.2⟩

theorem Keeps.snapshot_cut (h : b.Keeps maxBytes text) (hlt : maxBytes < text.length) :
    b.snapshot = b.keptHead ++ omittedMarker b.leftOut ++ b.keptTail := by
  have hunseen : b.unseen ≠ 0 := by
    rw [h.unseen_eq]
    omega
  rw [snapshot, if_neg (fun hempty => hunseen hempty.2.2), if_neg hunseen]

/-- **Snapshots.**  All of it holds but one thing: the head of a longer text has
whole codepoints if and only if one ends where it is cut. -/
theorem snapshot_describes_iff (maxBytes : Nat) (chunks : List Bytes) :
    Describes maxBytes chunks ↔ (maxBytes < chunks.flatten.length → ValidUtf8 chunks.flatten →
      Boundary chunks.flatten (maxBytes / 2)) := by
  have hkeeps := keeps_ofChunks maxBytes chunks
  constructor
  · intro h hlt hvalid
    have hhead := (h.codepoints hlt hvalid).1
    rw [hkeeps.keptHead_eq, validUtf8_take hvalid] at hhead
    exact hhead
  · intro hboundary
    refine ⟨fun other hsame => ?_, hkeeps.snapshot_whole, hkeeps.snapshot_cut, fun hlt => ?_,
      fun hlt => ?_, fun hlt => ?_, fun hlt hvalid => ⟨?_, ?_⟩⟩
    · have hother := keeps_ofChunks maxBytes other
      rw [hsame] at hother
      rcases Nat.lt_or_ge maxBytes chunks.flatten.length with hlt | hle
      · have hcount : (ofChunks maxBytes other).leftOut = (ofChunks maxBytes chunks).leftOut := by
          have heq := (hother.leftOut_eq hlt).trans (hkeeps.leftOut_eq hlt).symm
          omega
        rw [hother.snapshot_cut hlt, hkeeps.snapshot_cut hlt, hother.keptHead_eq, hkeeps.keptHead_eq,
          hother.keptTail_eq hlt, hkeeps.keptTail_eq hlt, hcount]
      · rw [hother.snapshot_whole hle, hkeeps.snapshot_whole hle]
    · rw [hkeeps.keptHead_eq]
      exact List.take_prefix _ _
    · rw [hkeeps.keptTail_eq hlt]
      exact List.drop_suffix _ _
    · have hcount := hkeeps.leftOut_eq hlt
      have hle : tailFrom maxBytes chunks.flatten ≤ chunks.flatten.length := boundaryAfter_le _ _
      rw [hkeeps.keptHead_eq, hkeeps.keptTail_eq hlt, List.length_take, List.length_drop]
      omega
    · rw [hkeeps.keptHead_eq, validUtf8_take hvalid]
      exact hboundary hlt hvalid
    · rw [hkeeps.keptTail_eq hlt]
      exact validUtf8_drop hvalid (boundary_boundaryAfter _ _)

end Shows

/-- **A codepoint cut in two**: five times two bytes in a buffer of six. -/
theorem snapshot_splits_codepoint :
    ValidUtf8 (lit "ééééé") ∧
      (ofChunks 6 [lit "ééééé"]).snapshot =
        lit "é" ++ [0xc3] ++ omittedMarker 5 ++ lit "é" ∧
      ¬∀ (maxBytes : Nat) (chunks : List Bytes), Describes maxBytes chunks := by
  refine ⟨by decide, by decide, fun h => ?_⟩
  have hhead := ((h 6 [lit "ééééé"]).codepoints (by decide) (by decide)).1
  revert hhead
  decide

end HeadTailBuffer

/-! ### A text cut in the middle -/

/-- Where the head ends of a text that keeps so many bytes. -/
def cutHead (text : Bytes) (keep : Nat) : Nat := utf8BoundaryBefore text (keep / 2)

/-- Where its tail starts. -/
def cutTail (text : Bytes) (keep : Nat) : Nat :=
  max (cutHead text keep) (utf8BoundaryAfter text (text.length - (keep - keep / 2)))

/-- The passes of `HeadTail` that settle how many bytes the marker names. -/
def headTailPasses (text : Bytes) (cap : Nat) : Nat → Nat → Option Bytes
  | 0, _ => none
  | attempts + 1, omitted =>
    if cap ≤ (omittedMarker omitted).length then none
    else if cutTail text (cap - (omittedMarker omitted).length) -
        cutHead text (cap - (omittedMarker omitted).length) = omitted then
      some (text.take (cutHead text (cap - (omittedMarker omitted).length)) ++
        omittedMarker omitted ++ text.drop (cutTail text (cap - (omittedMarker omitted).length)))
    else headTailPasses text cap attempts
      (cutTail text (cap - (omittedMarker omitted).length) -
        cutHead text (cap - (omittedMarker omitted).length))

/-- `HeadTail`. -/
def headTail (text : Bytes) (cap : Nat) : Bytes :=
  if text.length ≤ cap then text
  else if cap ≤ 3 then List.replicate cap (ch '.')
  else (headTailPasses text cap 3 (text.length - cap)).getD
    (utf8Prefix text (cap - 3) ++ lit "...")

variable {text : Bytes} {cap : Nat}

theorem headTail_of_le (h : text.length ≤ cap) : headTail text cap = text := if_pos h

theorem boundaryBefore_le (s : Bytes) (offset : Nat) : utf8BoundaryBefore s offset ≤ offset :=
  (stepBack_le _ _).trans (min_le_left _ _)

theorem length_utf8Prefix_le (s : Bytes) (cap : Nat) : (utf8Prefix s cap).length ≤ cap := by
  rw [utf8Prefix]
  split_ifs with hle
  · exact hle
  · exact (List.length_take_le _ _).trans (boundaryBefore_le _ _)

/-- A prefix that was cut is not cut again. -/
theorem utf8Prefix_length (s : Bytes) (cap : Nat) :
    utf8Prefix s (utf8Prefix s cap).length = utf8Prefix s cap := by
  by_cases hle : s.length ≤ cap
  · rw [utf8Prefix_of_le hle, utf8Prefix_of_le le_rfl]
  · have hcap : utf8BoundaryBefore s cap ≤ s.length := (boundaryBefore_le s cap).trans (by omega)
    have hcut : utf8Prefix s cap = s.take (utf8BoundaryBefore s cap) := if_neg hle
    have hlength : (utf8Prefix s cap).length = utf8BoundaryBefore s cap := by
      rw [hcut, List.length_take, min_eq_left hcap]
    have hsame : utf8BoundaryBefore s (utf8BoundaryBefore s cap) = utf8BoundaryBefore s cap := by
      rw [utf8BoundaryBefore.eq_def s (utf8BoundaryBefore s cap), min_eq_left hcap]
      rcases boundary_stepBack s (min cap s.length) with hzero | hboundary
      · rw [utf8BoundaryBefore, hzero]
        rfl
      · exact stepBack_of_boundary hboundary
    have hshort : ¬s.length ≤ utf8BoundaryBefore s cap := by
      have hle' := boundaryBefore_le s cap
      omega
    rw [hlength, hcut, utf8Prefix, if_neg hshort, hsame]

/-- The two parts that are kept are no longer than what is to be kept. -/
theorem length_cut_le (text : Bytes) (keep : Nat) :
    (text.take (cutHead text keep)).length + (text.drop (cutTail text keep)).length ≤ keep := by
  have hhead : cutHead text keep ≤ keep / 2 := boundaryBefore_le _ _
  have htail : text.length - (keep - keep / 2) ≤ cutTail text keep :=
    (le_boundaryAfter (Nat.sub_le _ _)).trans (le_max_right _ _)
  have htake := List.length_take_le (cutHead text keep) text
  rw [List.length_drop]
  omega

theorem length_headTailPasses_le (attempts : Nat) {omitted : Nat} {cut : Bytes}
    (h : headTailPasses text cap attempts omitted = some cut) : cut.length ≤ cap := by
  induction attempts generalizing omitted with
  | zero => cases h
  | succ attempts ih =>
    rw [headTailPasses] at h
    split_ifs at h
    · obtain rfl := Option.some.inj h
      have hcut := length_cut_le text (cap - (omittedMarker omitted).length)
      rw [List.length_append, List.length_append]
      omega
    · exact ih h

/-- **A cut text is within its cap**, the marker counted. -/
theorem length_headTail_le (text : Bytes) (cap : Nat) : (headTail text cap).length ≤ cap := by
  rw [headTail]
  split_ifs with hle hshort
  · exact hle
  · exact (List.length_replicate).le
  · rcases hcut : headTailPasses text cap 3 (text.length - cap) with - | cut
    · rw [Option.getD_none, List.length_append]
      have hprefix := length_utf8Prefix_le text (cap - 3)
      have hdots : (lit "...").length = 3 := by decide
      omega
    · exact length_headTailPasses_le 3 hcut

theorem length_omittedMarker_pos (bytes : Nat) : 0 < (omittedMarker bytes).length := by
  have hopen : (lit "\n... [").length = 6 := by decide
  rw [omittedMarker, List.length_append, List.length_append]
  omega

theorem headTailPasses_ne_nil (attempts : Nat) {omitted : Nat} {cut : Bytes}
    (h : headTailPasses text cap attempts omitted = some cut) : cut ≠ [] := by
  induction attempts generalizing omitted with
  | zero => cases h
  | succ attempts ih =>
    rw [headTailPasses] at h
    split_ifs at h
    · obtain rfl := Option.some.inj h
      have hmarker := length_omittedMarker_pos omitted
      rintro hnil
      have hlength := congrArg List.length hnil
      rw [List.length_append, List.length_append, List.length_nil] at hlength
      omega
    · exact ih h

/-- Nothing is left of a text only where there was nothing. -/
theorem headTail_eq_nil (hcap : 0 < cap) (h : headTail text cap = []) : text = [] := by
  rw [headTail] at h
  split_ifs at h with hle hshort
  · exact h
  · have hlength := congrArg List.length h
    rw [List.length_replicate, List.length_nil] at hlength
    omega
  · rcases hcut : headTailPasses text cap 3 (text.length - cap) with - | cut
    · rw [hcut, Option.getD_none] at h
      exact absurd (List.append_eq_nil_iff.mp h).2 (by decide)
    · rw [hcut] at h
      exact absurd h (headTailPasses_ne_nil 3 hcut)

end UAgent
