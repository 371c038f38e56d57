/-
UAgent/Core/TextPages.lean

A long text read a page at a time: `PageText` (src/agent/transcript_query.cc)
pages a text held in memory, `ReadPrivateArtifact` (src/core/private_store.cc)
a file kept whole outside the transcript.  A page's start and end are both
moved to a UTF-8 boundary, by passing over continuation bytes, however many
there are.

Main result: `pages_whole_iff`.  Reading from offset 0, and then from the
page's `next` while there is more, yields exactly the text if and only if it
does not begin with a continuation byte and holds no page full of them in a
row (`Pageable`).  A leading one is shown by no page; at a page full of them
the next page starts where the last one did.
-/
import UAgent.Core.Strings

namespace UAgent

open Bytes

/-! ### The two pagers -/

def kTextPageBytes : Nat := 16 * 1024

/-- `Utf8BoundaryAfter`: steps forward over continuation bytes. -/
def utf8BoundaryAfter (s : Bytes) (offset : Nat) : Nat :=
  min offset s.length + ((s.drop (min offset s.length)).takeWhile isContinuation).length

/-- One page, where the next one starts, the size of the whole text and
whether there is more of it. -/
structure TextPage where
  text : Bytes
  next : Nat
  bytes : Nat
  more : Bool
deriving DecidableEq

/-- `PageText`. -/
def pageText (text : Bytes) (offset : Nat) : TextPage :=
  let offset := min offset text.length
  let stop := utf8BoundaryBefore text (min text.length (offset + kTextPageBytes))
  let start := utf8BoundaryAfter text offset
  { text := (text.drop start).take (if stop ≥ start then stop - start else 0)
    next := stop
    bytes := text.length
    more := stop < text.length }

/-- What `ReadPrivateArtifact` answers for the file it opened.  The window
looks four bytes past the page. -/
def artifactPage (file : Bytes) (offset : Nat) : TextPage :=
  let offset := min offset file.length
  let text := (file.drop offset).take (min (file.length - offset) (kTextPageBytes + 4))
  let start := utf8BoundaryAfter text 0
  let stop := utf8BoundaryBefore text (min kTextPageBytes text.length)
  -- `end - start` is unsigned: below zero it asks for all that is left
  { text := if start ≤ stop then (text.drop start).take (stop - start) else text.drop start
    next := offset + stop
    bytes := file.length
    more := offset + stop < file.length }

/-- `ReadPrivateArtifact`, given what its path opens. -/
def readPrivateArtifact (opened : Option Bytes) (offset : Nat) : Except Bytes TextPage :=
  match opened with
  | none => .error (lit "retained body unavailable")
  | some file => .ok (artifactPage file offset)

/-! ### Boundaries -/

/-- No continuation byte stands there. -/
def Boundary (s : Bytes) (offset : Nat) : Prop := ∀ c ∈ s[offset]?, isContinuation c = false

theorem boundary_of_le {s : Bytes} {offset : Nat} (h : s.length ≤ offset) : Boundary s offset := by
  intro c hc
  rw [List.getElem?_eq_none h] at hc
  exact absurd hc (by simp)

theorem stepBack_le (s : Bytes) (offset : Nat) : stepBack s offset ≤ offset := by
  induction offset with
  | zero => exact le_rfl
  | succ offset ih =>
    rw [stepBack]
    split
    · split_ifs
      · exact ih.trans (Nat.le_succ _)
      · exact le_rfl
    · exact le_rfl

/-- A boundary is where the step back ends. -/
theorem stepBack_of_boundary {s : Bytes} {offset : Nat} (h : Boundary s offset) :
    stepBack s offset = offset := by
  cases offset with
  | zero => rfl
  | succ offset =>
    rw [stepBack]
    split
    · rename_i c hc
      rw [h c hc]
      rfl
    · rfl

/-- Over anything else it goes on. -/
theorem stepBack_of_not_boundary {s : Bytes} {offset : Nat} (h : ¬ Boundary s (offset + 1)) :
    stepBack s (offset + 1) = stepBack s offset := by
  rw [stepBack]
  split
  · rename_i c hc
    by_cases hcont : isContinuation c
    · exact if_pos hcont
    · refine absurd (fun d hd => ?_) h
      rw [hc, Option.mem_some_iff] at hd
      subst hd
      simpa using hcont
  · rename_i hnone
    refine absurd (fun d hd => ?_) h
    rw [hnone] at hd
    exact absurd hd (by simp)

theorem boundary_stepBack (s : Bytes) (offset : Nat) :
    stepBack s offset = 0 ∨ Boundary s (stepBack s offset) := by
  induction offset with
  | zero => exact .inl rfl
  | succ offset ih =>
    by_cases h : Boundary s (offset + 1)
    · rw [stepBack_of_boundary h]
      exact .inr h
    · rw [stepBack_of_not_boundary h]
      exact ih

/-- No boundary is stepped over. -/
theorem le_stepBack {s : Bytes} {j offset : Nat} (hj : j ≤ offset) (h : Boundary s j) :
    j ≤ stepBack s offset := by
  induction offset with
  | zero => exact hj
  | succ offset ih =>
    by_cases hlast : Boundary s (offset + 1)
    · rw [stepBack_of_boundary hlast]
      exact hj
    · rw [stepBack_of_not_boundary hlast]
      refine ih (Nat.lt_succ_iff.mp (lt_of_le_of_ne hj ?_))
      rintro rfl
      exact hlast h

/-- In a text cut in front at a boundary the step back ends at the same byte. -/
theorem stepBack_drop {s : Bytes} {start : Nat} (h : Boundary s start) (offset : Nat) :
    start + stepBack (s.drop start) offset = stepBack s (start + offset) := by
  induction offset with
  | zero => exact (stepBack_of_boundary h).symm
  | succ offset ih =>
    have hsame : Boundary (s.drop start) (offset + 1) ↔ Boundary s (start + (offset + 1)) := by
      rw [Boundary, Boundary, List.getElem?_drop]
    by_cases hlast : Boundary s (start + (offset + 1))
    · rw [stepBack_of_boundary hlast, stepBack_of_boundary (hsame.mpr hlast)]
    · rw [stepBack_of_not_boundary (fun h => hlast (hsame.mp h)), ih]
      exact (stepBack_of_not_boundary hlast).symm

theorem stepBack_congr {s t : Bytes} {offset : Nat}
    (h : ∀ j ≤ offset, Boundary s j ↔ Boundary t j) : stepBack s offset = stepBack t offset := by
  induction offset with
  | zero => rfl
  | succ offset ih =>
    by_cases hs : Boundary s (offset + 1)
    · rw [stepBack_of_boundary hs, stepBack_of_boundary ((h _ le_rfl).mp hs)]
    · rw [stepBack_of_not_boundary hs,
        stepBack_of_not_boundary fun ht => hs ((h _ le_rfl).mpr ht)]
      exact ih fun j hj => h j (hj.trans (Nat.le_succ _))

theorem boundaryAfter_of_boundary {s : Bytes} {offset : Nat} (hle : offset ≤ s.length)
    (h : Boundary s offset) : utf8BoundaryAfter s offset = offset := by
  have hrun : (s.drop offset).takeWhile isContinuation = [] := by
    rw [List.takeWhile_eq_nil_iff]
    intro hlt
    have hnot := h (s.drop offset)[0] (by rw [List.getElem_drop, Option.mem_def]; simp)
    simpa using hnot
  rw [utf8BoundaryAfter, min_eq_left hle, hrun]
  rfl

theorem le_boundaryAfter {s : Bytes} {offset : Nat} (hle : offset ≤ s.length) :
    offset ≤ utf8BoundaryAfter s offset := by
  rw [utf8BoundaryAfter, min_eq_left hle]
  exact Nat.le_add_right _ _

theorem boundaryAfter_le (s : Bytes) (offset : Nat) : utf8BoundaryAfter s offset ≤ s.length := by
  have htaken : (s.drop (min offset s.length)).takeWhile isContinuation <+:
      s.drop (min offset s.length) := List.takeWhile_prefix _
  have hrun := htaken.length_le
  rw [List.length_drop] at hrun
  rw [utf8BoundaryAfter]
  omega

/-- Only continuation bytes are passed over. -/
theorem boundaryAfter_le_of_boundary {s : Bytes} {offset j : Nat} (hle : offset ≤ j)
    (h : Boundary s j) : utf8BoundaryAfter s offset ≤ j := by
  by_contra hpast
  have hlength := boundaryAfter_le s offset
  have hmin : min offset s.length = offset := by omega
  have hrun : j - offset < ((s.drop offset).takeWhile isContinuation).length := by
    rw [utf8BoundaryAfter, hmin] at hpast
    omega
  have hcont := List.mem_takeWhile_imp (List.getElem_mem hrun)
  have htaken : (s.drop offset).takeWhile isContinuation <+: s.drop offset :=
    List.takeWhile_prefix _
  rw [htaken.getElem hrun, List.getElem_drop] at hcont
  have hj : offset + (j - offset) = j := Nat.add_sub_cancel' hle
  simp only [hj] at hcont
  have hnot := h s[j] (by rw [Option.mem_def]; simp)
  rw [hcont] at hnot
  exact absurd hnot (by simp)

theorem lt_boundaryAfter {s : Bytes} (h : ¬ Boundary s 0) : 0 < utf8BoundaryAfter s 0 := by
  cases s with
  | nil => exact absurd (boundary_of_le le_rfl) h
  | cons c s =>
    have hcont : isContinuation c = true := by
      by_contra hnot
      refine h fun d hd => ?_
      rw [List.getElem?_cons_zero, Option.mem_some_iff] at hd
      subst hd
      simpa using hnot
    rw [utf8BoundaryAfter, Nat.zero_min, List.drop_zero, List.takeWhile_cons_of_pos hcont,
      List.length_cons]
    omega

/-! ### Reading page by page -/

/-- A reading from an offset: every page that says there is more starts the
next one further on. -/
inductive Reads (page : Nat → TextPage) : Nat → List TextPage → Prop where
  | last {offset : Nat} : (page offset).more = false → Reads page offset [page offset]
  | more {offset : Nat} {pages : List TextPage} : (page offset).more = true →
      offset < (page offset).next → Reads page (page offset).next pages →
      Reads page offset (page offset :: pages)

/-- The reading from the start ends and its pages hold the text. -/
def ReadsWhole (page : Nat → TextPage) (s : Bytes) : Prop :=
  ∃ pages, Reads page 0 pages ∧ pages.flatMap TextPage.text = s

/-- The text does not begin with a continuation byte and holds no page full of
them in a row. -/
def Pageable (s : Bytes) : Prop :=
  Boundary s 0 ∧
    ∀ start, start + kTextPageBytes ≤ s.length →
      ∃ j, start ≤ j ∧ j < start + kTextPageBytes ∧ Boundary s j

/-- Where a page from an offset ends. -/
def cutAt (s : Bytes) (offset : Nat) : Nat := stepBack s (min s.length (offset + kTextPageBytes))

/-- What a reader of the pages sees: from a boundary the text up to the cut,
and a text that begins with a continuation byte is not shown from there. -/
structure Pager (s : Bytes) (page : Nat → TextPage) : Prop where
  page_eq : ∀ offset ≤ s.length, Boundary s offset →
    page offset =
      { text := (s.drop offset).take (cutAt s offset - offset)
        next := cutAt s offset
        bytes := s.length
        more := cutAt s offset < s.length }
  length_last : ∀ offset ≤ s.length, (page offset).text.length ≤ s.length - offset
  length_next : ∀ offset ≤ s.length, offset < (page offset).next →
    (page offset).next ≤ s.length ∧ (page offset).text.length ≤ (page offset).next - offset
  lost_last : ¬ Boundary s 0 → (page 0).text.length < s.length
  lost_next : ¬ Boundary s 0 → 0 < (page 0).next → (page 0).text.length < (page 0).next

theorem cutAt_le (s : Bytes) (offset : Nat) : cutAt s offset ≤ s.length :=
  (stepBack_le s _).trans (min_le_left _ _)

theorem boundary_cutAt {s : Bytes} (h : Boundary s 0) (offset : Nat) :
    Boundary s (cutAt s offset) := by
  rcases boundary_stepBack s (min s.length (offset + kTextPageBytes)) with hzero | hboundary
  · rw [cutAt, hzero]
    exact h
  · exact hboundary

/-- A page that is not the last one advances. -/
theorem lt_cutAt {s : Bytes} (h : Pageable s) {offset : Nat} (hlt : offset < s.length)  :
    offset < cutAt s offset := by
  have hpage : 0 < kTextPageBytes := by decide
  rw [cutAt]
  rcases le_total s.length (offset + kTextPageBytes) with hle | hle
  · rw [min_eq_left hle, stepBack_of_boundary (boundary_of_le le_rfl)]
    exact hlt
  · rw [min_eq_right hle]
    rcases hle.eq_or_lt with hend | hend
    · rw [hend, stepBack_of_boundary (boundary_of_le le_rfl)]
      exact hlt
    · obtain ⟨j, hfrom, hto, hj⟩ := h.2 (offset + 1) (by omega)
      have hle : j ≤ offset + kTextPageBytes := by omega
      have := le_stepBack hle hj
      omega

namespace Pager

variable {s : Bytes} {page : Nat → TextPage}

theorem next_eq (h : Pager s page) {offset : Nat} (hle : offset ≤ s.length)
    (hb : Boundary s offset) : (page offset).next = cutAt s offset := by
  rw [h.page_eq offset hle hb]

theorem more_eq (h : Pager s page) {offset : Nat} (hle : offset ≤ s.length)
    (hb : Boundary s offset) : (page offset).more = decide (cutAt s offset < s.length) := by
  rw [h.page_eq offset hle hb]

/-- **From a boundary the rest of the text is read.** -/
theorem reads (h : Pager s page) (hs : Pageable s) (left : Nat) : ∀ {offset : Nat},
    s.length - offset = left → offset ≤ s.length → Boundary s offset →
    ∃ pages, Reads page offset pages ∧ pages.flatMap TextPage.text = s.drop offset := by
  induction left using Nat.strong_induction_on with
  | _ left ih =>
    intro offset hleft hle hb
    by_cases hmore : cutAt s offset < s.length
    · have hlt : offset < cutAt s offset := by
        refine lt_cutAt hs (lt_of_le_of_ne hle fun heq => ?_)
        rw [heq, cutAt, min_eq_left (Nat.le_add_right _ _),
          stepBack_of_boundary (boundary_of_le le_rfl)] at hmore
        exact absurd hmore (lt_irrefl _)
      obtain ⟨pages, hreads, htext⟩ := ih (s.length - cutAt s offset) (by omega) rfl hmore.le
        (boundary_cutAt hs.1 offset)
      refine ⟨page offset :: pages, .more ?_ ?_ ?_, ?_⟩
      · rw [h.more_eq hle hb]
        exact decide_eq_true hmore
      · rw [h.next_eq hle hb]
        exact hlt
      · rw [h.next_eq hle hb]
        exact hreads
      · rw [List.flatMap_cons, htext, h.page_eq offset hle hb]
        have hrest : s.drop (cutAt s offset) = (s.drop offset).drop (cutAt s offset - offset) := by
          rw [List.drop_drop, Nat.add_sub_cancel' hlt.le]
        rw [hrest]
        exact List.take_append_drop _ _
    · have hend : cutAt s offset = s.length := le_antisymm (cutAt_le s offset) (not_lt.mp hmore)
      refine ⟨[page offset], .last ?_, ?_⟩
      · rw [h.more_eq hle hb]
        exact decide_eq_false hmore
      · rw [List.flatMap_singleton, h.page_eq offset hle hb, hend]
        exact List.take_of_length_le (by rw [List.length_drop])

/-- The pages of a reading hold no more than is left. -/
theorem length_le (h : Pager s page) {offset : Nat} {pages : List TextPage}
    (hreads : Reads page offset pages) (hle : offset ≤ s.length) :
    (pages.flatMap TextPage.text).length + offset ≤ s.length := by
  induction hreads with
  | last hlast =>
    rename_i offset
    have := h.length_last offset hle
    rw [List.flatMap_singleton]
    omega
  | more hmore hlt _ ih =>
    rename_i offset pages _
    obtain ⟨hnext, htext⟩ := h.length_next offset hle hlt
    have := ih hnext
    rw [List.flatMap_cons, List.length_append]
    omega

/-- A continuation byte at the start is shown by no page. -/
theorem not_whole_of_lost (h : Pager s page) (hlost : ¬ Boundary s 0) : ¬ ReadsWhole page s := by
  rintro ⟨pages, hreads, htext⟩
  cases hreads with
  | last hlast =>
    rw [List.flatMap_singleton] at htext
    exact absurd (congrArg List.length htext) (h.lost_last hlost).ne
  | more hmore hlt hrest =>
    have hnext := (h.length_next 0 (Nat.zero_le _) hlt).1
    have hlength := congrArg List.length htext
    rw [List.flatMap_cons, List.length_append] at hlength
    have := h.length_le hrest hnext
    have := h.lost_next hlost hlt
    omega

/-- A page full of continuation bytes is never passed. -/
theorem not_reads_of_run (h : Pager s page) (hs : Boundary s 0) {start : Nat}
    (hrun : ∀ j, start < j → j ≤ start + kTextPageBytes → ¬ Boundary s j) {offset : Nat}
    {pages : List TextPage} (hreads : Reads page offset pages) :
    Boundary s offset → offset ≤ start → start < s.length → False := by
  have hcut : ∀ offset ≤ start, cutAt s offset ≤ start := by
    intro offset hle
    by_contra hpast
    have hto : cutAt s offset ≤ offset + kTextPageBytes := (stepBack_le s _).trans (min_le_right _ _)
    exact hrun _ (not_le.mp hpast) (by omega) (boundary_cutAt hs offset)
  induction hreads with
  | last hlast =>
    intro hb hle hlt
    rw [h.more_eq (hle.trans hlt.le) hb, decide_eq_false_iff_not] at hlast
    have := hcut _ hle
    omega
  | more hmore hadvance _ ih =>
    intro hb hle hlt
    rw [h.next_eq (hle.trans hlt.le) hb] at ih
    exact ih (boundary_cutAt hs _) (hcut _ hle) hlt

/-- **A reading shows the text exactly when the text can be paged.** -/
theorem readsWhole_iff (h : Pager s page) : ReadsWhole page s ↔ Pageable s := by
  constructor
  · intro hwhole
    by_contra hnot
    by_cases hb : Boundary s 0
    · have hstuck : ∃ start, start + kTextPageBytes ≤ s.length ∧
          ∀ j, start ≤ j → j < start + kTextPageBytes → ¬ Boundary s j := by
        by_contra hall
        refine hnot ⟨hb, fun start hstart => ?_⟩
        by_contra hnone
        refine hall ⟨start, hstart, fun j hfrom hto hj => hnone ⟨j, hfrom, hto, hj⟩⟩
      obtain ⟨start, hend, hrun⟩ := hstuck
      have hpage : 0 < kTextPageBytes := by decide
      have hpos : start ≠ 0 := fun hzero => hrun 0 hzero.le (by omega) hb
      obtain ⟨pages, hreads, -⟩ := hwhole
      have hrun' : ∀ j, start - 1 < j → j ≤ start - 1 + kTextPageBytes → ¬ Boundary s j :=
        fun j hfrom hto => hrun j (by omega) (by omega)
      exact h.not_reads_of_run hb hrun' hreads hb (Nat.zero_le _) (by omega)
    · exact h.not_whole_of_lost hb hwhole
  · intro hs
    obtain ⟨pages, hreads, htext⟩ := h.reads hs _ rfl (Nat.zero_le _) hs.1
    exact ⟨pages, hreads, by simpa using htext⟩

end Pager

/-! ### The two pagers -/

theorem boundaryBefore_min (s : Bytes) (offset : Nat) :
    utf8BoundaryBefore s (min s.length offset) = stepBack s (min s.length offset) := by
  rw [utf8BoundaryBefore, min_eq_left (min_le_left _ _)]

theorem pager_pageText (s : Bytes) : Pager s (pageText s) := by
  have hpage : ∀ offset ≤ s.length, pageText s offset =
      { text := (s.drop (utf8BoundaryAfter s offset)).take
          (cutAt s offset - utf8BoundaryAfter s offset)
        next := cutAt s offset
        bytes := s.length
        more := cutAt s offset < s.length } := by
    intro offset hle
    have hcount : ∀ a b : Nat, (if a ≥ b then a - b else 0) = a - b := by
      intro a b
      split_ifs <;> omega
    simp only [pageText, min_eq_left hle, boundaryBefore_min, hcount, cutAt]
    rfl
  have hnext : ∀ offset ≤ s.length, (pageText s offset).next = cutAt s offset := by
    intro offset hle
    rw [hpage offset hle]
  have htext : ∀ offset ≤ s.length,
      (pageText s offset).text.length ≤ cutAt s offset - utf8BoundaryAfter s offset := by
    intro offset hle
    rw [hpage offset hle]
    exact List.length_take_le _ _
  refine ⟨?_, ?_, ?_, ?_, ?_⟩
  · intro offset hle hb
    rw [hpage offset hle, boundaryAfter_of_boundary hle hb]
  · intro offset hle
    have := htext offset hle
    have := cutAt_le s offset
    have := le_boundaryAfter hle
    omega
  · intro offset hle hlt
    have := htext offset hle
    have := le_boundaryAfter hle
    rw [hnext offset hle] at hlt ⊢
    exact ⟨cutAt_le s offset, by omega⟩
  · intro hlost
    have := htext 0 (Nat.zero_le _)
    have := cutAt_le s 0
    have := lt_boundaryAfter hlost
    have := boundaryAfter_le s 0
    omega
  · intro hlost hlt
    have := htext 0 (Nat.zero_le _)
    have := lt_boundaryAfter hlost
    rw [hnext 0 (Nat.zero_le _)] at hlt ⊢
    omega

/-- The bytes a page of a file is cut from. -/
def window (file : Bytes) (offset : Nat) : Bytes :=
  (file.drop offset).take (min (file.length - offset) (kTextPageBytes + 4))

theorem length_window (file : Bytes) (offset : Nat) :
    (window file offset).length = min (file.length - offset) (kTextPageBytes + 4) := by
  rw [window, List.length_take, List.length_drop]
  omega

/-- Inside the window, the boundaries are those of the file. -/
theorem boundary_window {file : Bytes} {offset j : Nat} (hj : j < (window file offset).length) :
    Boundary (window file offset) j ↔ Boundary file (offset + j) := by
  rw [length_window] at hj
  rw [Boundary, Boundary, window, List.getElem?_take_of_lt hj, List.getElem?_drop]

theorem boundary_window_zero {file : Bytes} {offset : Nat} :
    Boundary (window file offset) 0 ↔ Boundary file offset := by
  rcases Nat.eq_zero_or_pos (window file offset).length with hnone | hsome
  · have hend : file.length ≤ offset := by
      rw [length_window] at hnone
      omega
    exact iff_of_true (boundary_of_le hnone.le) (boundary_of_le hend)
  · exact boundary_window hsome

/-- Where the page ends in the window. -/
def stopIn (text : Bytes) : Nat := stepBack text (min kTextPageBytes text.length)

theorem stopIn_le (text : Bytes) : stopIn text ≤ text.length :=
  (stepBack_le text _).trans (min_le_right _ _)

theorem artifactPage_eq {file : Bytes} {offset : Nat} (hle : offset ≤ file.length) :
    artifactPage file offset =
      { text :=
          if utf8BoundaryAfter (window file offset) 0 ≤ stopIn (window file offset) then
            ((window file offset).drop (utf8BoundaryAfter (window file offset) 0)).take
              (stopIn (window file offset) - utf8BoundaryAfter (window file offset) 0)
          else (window file offset).drop (utf8BoundaryAfter (window file offset) 0)
        next := offset + stopIn (window file offset)
        bytes := file.length
        more := offset + stopIn (window file offset) < file.length } := by
  have hstop : ∀ text : Bytes,
      utf8BoundaryBefore text (min kTextPageBytes text.length) = stopIn text := fun text => by
    rw [utf8BoundaryBefore, min_eq_left (min_le_right _ _)]
    rfl
  rw [artifactPage, min_eq_left hle]
  simp only [hstop]
  rfl

/-- The window ends the page where the whole file would. -/
theorem add_stopIn {file : Bytes} {offset : Nat} (hle : offset ≤ file.length)
    (hb : Boundary file offset) : offset + stopIn (window file offset) = cutAt file offset := by
  have hlength := length_window file offset
  rcases le_or_gt (file.length - offset) kTextPageBytes with hlast | hlong
  · have hwhole : (window file offset).length = file.length - offset := by omega
    rw [stopIn, cutAt, min_eq_right (by omega), min_eq_left (by omega),
      stepBack_of_boundary (boundary_of_le le_rfl), stepBack_of_boundary (boundary_of_le le_rfl)]
    omega
  · have hsame : stepBack (window file offset) kTextPageBytes =
        stepBack (file.drop offset) kTextPageBytes := by
      apply stepBack_congr
      intro j hj
      rw [boundary_window (by omega), Boundary, Boundary, List.getElem?_drop]
    rw [stopIn, cutAt, min_eq_left (by omega), min_eq_right (by omega), hsame, stepBack_drop hb]

theorem pager_artifactPage (file : Bytes) : Pager file (artifactPage file) := by
  have hstarts : ∀ offset, 0 < stopIn (window file offset) →
      utf8BoundaryAfter (window file offset) 0 ≤ stopIn (window file offset) := by
    intro offset hpos
    rcases boundary_stepBack (window file offset) (min kTextPageBytes (window file offset).length)
      with hzero | hb
    · exact absurd hzero hpos.ne'
    · exact boundaryAfter_le_of_boundary (Nat.zero_le _) hb
  have hnext : ∀ offset ≤ file.length,
      (artifactPage file offset).next = offset + stopIn (window file offset) := by
    intro offset hle
    rw [artifactPage_eq hle]
  have hrest : ∀ offset ≤ file.length, (artifactPage file offset).text.length ≤
      (window file offset).length - utf8BoundaryAfter (window file offset) 0 := by
    intro offset hle
    rw [artifactPage_eq hle]
    dsimp only
    split_ifs
    · exact (List.length_take_le' _ _).trans (by rw [List.length_drop])
    · rw [List.length_drop]
  have htext : ∀ offset ≤ file.length, 0 < stopIn (window file offset) →
      (artifactPage file offset).text.length ≤
        stopIn (window file offset) - utf8BoundaryAfter (window file offset) 0 := by
    intro offset hle hpos
    rw [artifactPage_eq hle]
    dsimp only
    rw [if_pos (hstarts offset hpos)]
    exact List.length_take_le _ _
  have hwindow : ∀ offset, (window file offset).length ≤ file.length - offset := fun offset => by
    rw [length_window]
    exact min_le_left _ _
  refine ⟨?_, ?_, ?_, ?_, ?_⟩
  · intro offset hle hb
    have hstart : utf8BoundaryAfter (window file offset) 0 = 0 :=
      boundaryAfter_of_boundary (Nat.zero_le _) (boundary_window_zero.mpr hb)
    have hstop := stopIn_le (window file offset)
    rw [length_window] at hstop
    have hshown : (window file offset).take (stopIn (window file offset)) =
        (file.drop offset).take (stopIn (window file offset)) := by
      rw [window, List.take_take, ← window, min_eq_left hstop]
    rw [artifactPage_eq hle, hstart, if_pos (Nat.zero_le _), List.drop_zero, Nat.sub_zero, hshown,
      ← add_stopIn hle hb, Nat.add_sub_cancel_left]
  · intro offset hle
    have := hrest offset hle
    have := hwindow offset
    omega
  · intro offset hle hlt
    rw [hnext offset hle] at hlt ⊢
    have := htext offset hle (by omega)
    have := stopIn_le (window file offset)
    have := hwindow offset
    omega
  · intro hlost
    have := hrest 0 (Nat.zero_le _)
    have := lt_boundaryAfter (mt boundary_window_zero.mp hlost)
    have := boundaryAfter_le (window file 0) 0
    have := hwindow 0
    omega
  · intro hlost hlt
    rw [hnext 0 (Nat.zero_le _)] at hlt ⊢
    have := htext 0 (Nat.zero_le _) (by omega)
    have := lt_boundaryAfter (mt boundary_window_zero.mp hlost)
    omega

/-- **Reading page by page.**  The pages of a text in memory, and those of the
same text in a file, show it exactly when it can be paged. -/
theorem pages_whole_iff (s : Bytes) :
    ReadsWhole (pageText s) s ∧ ReadsWhole (artifactPage s) s ↔ Pageable s := by
  rw [(pager_pageText s).readsWhole_iff, (pager_artifactPage s).readsWhole_iff, and_self]

/-- A text no reader gets past: more continuation bytes than fit a page. -/
def stuckText : Bytes := ch 'a' :: List.replicate (kTextPageBytes + 1) 0x80

/-- Neither a byte that only continues a character nor a page full of them is
read. -/
theorem pages_lose_or_stall :
    (¬ ReadsWhole (pageText [0x80]) [0x80] ∧ ¬ ReadsWhole (artifactPage [0x80]) [0x80]) ∧
      (∀ pages, ¬ Reads (pageText stuckText) 0 pages) ∧
        ∀ pages, ¬ Reads (artifactPage stuckText) 0 pages := by
  have hlost : ¬ Boundary [0x80] 0 := by
    intro h
    exact absurd (h 0x80 rfl) (by decide)
  have hstart : Boundary stuckText 0 := by
    intro c hc
    rw [stuckText, List.getElem?_cons_zero, Option.mem_some_iff] at hc
    exact hc ▸ by decide
  have hrun : ∀ j, 0 < j → j ≤ 0 + kTextPageBytes → ¬ Boundary stuckText j := by
    intro j hpos hle h
    obtain ⟨j, rfl⟩ := Nat.exists_eq_succ_of_ne_zero hpos.ne'
    have hj : j < kTextPageBytes + 1 := by omega
    have hget : stuckText[j + 1]? = some 0x80 := by
      rw [stuckText, List.getElem?_cons_succ]
      exact List.getElem?_replicate_of_lt hj
    exact absurd (h 0x80 (Option.mem_def.mpr hget)) (by decide)
  have hlong : 0 < stuckText.length := by
    rw [stuckText, List.length_cons, List.length_replicate]
    omega
  refine ⟨⟨?_, ?_⟩, fun pages hreads => ?_, fun pages hreads => ?_⟩
  · exact (pager_pageText _).not_whole_of_lost hlost
  · exact (pager_artifactPage _).not_whole_of_lost hlost
  · exact (pager_pageText _).not_reads_of_run hstart hrun hreads hstart le_rfl hlong
  · exact (pager_artifactPage _).not_reads_of_run hstart hrun hreads hstart le_rfl hlong

end UAgent
