/-
UAgent/Agent/CommonLines.lean

The lines `TrimCommonLines` (src/include/core/strings.h) leaves of two texts,
on which every diff that is shown and every count of added and removed lines
rests.  The end is looked for behind the common beginning only, so that lines
which repeat are not counted for both ends.
-/
import UAgent.Agent.EditJournal
import UAgent.Base.CommonEnds

namespace UAgent

open Bytes CommonEnds

/-- A span replaces the lines of the old text between its ends by those of the
new, and no line is left at either end that both have there. -/
structure CommonLineSpan.Trims (span : CommonLineSpan) (oldLines newLines : List Bytes) :
    Prop where
  start_le_oldEnd : span.start ≤ span.oldEnd
  oldEnd_le : span.oldEnd ≤ oldLines.length
  start_le_newEnd : span.start ≤ span.newEnd
  newEnd_le : span.newEnd ≤ newLines.length
  replaced : oldLines.take span.start ++ (newLines.take span.newEnd).drop span.start ++
    oldLines.drop span.oldEnd = newLines
  first_differs : span.start < span.oldEnd → span.start < span.newEnd →
    oldLines[span.start]? ≠ newLines[span.start]?
  last_differs : span.start < span.oldEnd → span.start < span.newEnd →
    oldLines[span.oldEnd - 1]? ≠ newLines[span.newEnd - 1]?

/-- The ends by what the lists have in common. -/
theorem trimCommonLines_eq (oldLines newLines : List Bytes) :
    trimCommonLines oldLines newLines =
      ⟨common oldLines newLines,
        oldLines.length - commonEnd (oldLines.drop (common oldLines newLines))
          (newLines.drop (common oldLines newLines)),
        newLines.length - commonEnd (oldLines.drop (common oldLines newLines))
          (newLines.drop (common oldLines newLines))⟩ :=
  rfl

/-- `TrimCommonLines` gives such a span. -/
theorem trimCommonLines_trims (oldLines newLines : List Bytes) :
    (trimCommonLines oldLines newLines).Trims oldLines newLines := by
  have holdStart := common_le oldLines newLines
  have hnewStart := common_le newLines oldLines
  rw [common_comm] at hnewStart
  have hbegin := take_common oldLines newLines
  have hfirst := getElem?_common oldLines newLines
  rw [trimCommonLines_eq]
  generalize common oldLines newLines = start at *
  have holdEnd := commonEnd_le (oldLines.drop start) (newLines.drop start)
  have hnewEnd := commonEnd_le (newLines.drop start) (oldLines.drop start)
  rw [commonEnd_comm] at hnewEnd
  have hend := drop_commonEnd (oldLines.drop start) (newLines.drop start)
  have hlast := getElem?_commonEnd (oldLines.drop start) (newLines.drop start)
  generalize commonEnd (oldLines.drop start) (newLines.drop start) = closing at *
  rw [List.length_drop] at holdEnd hnewEnd hlast
  rw [List.length_drop] at hlast
  rw [List.drop_drop, List.drop_drop, List.length_drop, List.length_drop,
    show start + (oldLines.length - start - closing) = oldLines.length - closing by omega,
    show start + (newLines.length - start - closing) = newLines.length - closing by omega] at hend
  refine ⟨by show start ≤ _ - _; omega, Nat.sub_le _ _, by show start ≤ _ - _; omega,
    Nat.sub_le _ _, ?_, ?_, ?_⟩
  · show oldLines.take start ++ (newLines.take (newLines.length - closing)).drop start ++
      oldLines.drop (oldLines.length - closing) = newLines
    have hmiddle : newLines.take start ++ (newLines.take (newLines.length - closing)).drop start =
        newLines.take (newLines.length - closing) := by
      have htake := List.take_append_drop start (newLines.take (newLines.length - closing))
      rwa [List.take_take, Nat.min_eq_left (by omega)] at htake
    rw [hbegin, hend, hmiddle, List.take_append_drop]
  · intro hold hnew
    have hold : start < oldLines.length - closing := hold
    have hnew : start < newLines.length - closing := hnew
    exact hfirst (by omega) (by omega)
  · intro hold hnew
    have hold : start < oldLines.length - closing := hold
    have hnew : start < newLines.length - closing := hnew
    have hdiffers := hlast (by omega) (by omega)
    rw [List.getElem?_drop, List.getElem?_drop] at hdiffers
    show oldLines[oldLines.length - closing - 1]? ≠ newLines[newLines.length - closing - 1]?
    rwa [show start + (oldLines.length - start - 1 - closing) = oldLines.length - closing - 1 by
        omega,
      show start + (newLines.length - start - 1 - closing) = newLines.length - closing - 1 by
        omega] at hdiffers

namespace CommonLineSpan

variable {span : CommonLineSpan} {oldLines newLines : List Bytes}

/-- The lines added and removed account for the lines there are. -/
theorem Trims.balance (h : span.Trims oldLines newLines) :
    oldLines.length + (span.newEnd - span.start) =
      newLines.length + (span.oldEnd - span.start) := by
  obtain ⟨hold, holdEnd, hnew, hnewEnd, hreplaced, -, -⟩ := h
  have hlength := congrArg List.length hreplaced
  simp only [List.length_append, List.length_take, List.length_drop] at hlength
  omega

/-- Nothing is left to replace exactly when the lines are the same. -/
theorem Trims.eq_iff (h : span.Trims oldLines newLines) :
    (span.oldEnd = span.start ∧ span.newEnd = span.start) ↔ oldLines = newLines := by
  have hbalance := h.balance
  obtain ⟨hold, holdEnd, hnew, hnewEnd, hreplaced, hfirst, -⟩ := h
  constructor
  · rintro ⟨holdSame, hnewSame⟩
    rw [holdSame, hnewSame, List.drop_take_self, List.append_nil, List.take_append_drop]
      at hreplaced
    exact hreplaced
  · rintro rfl
    have hnot : ¬(span.start < span.oldEnd ∧ span.start < span.newEnd) := fun hboth =>
      hfirst hboth.1 hboth.2 rfl
    omega

end CommonLineSpan

end UAgent
