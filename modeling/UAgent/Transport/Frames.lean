/-
UAgent/Transport/Frames.lean

The reader of newline-framed JSON (`FrameBuffer`, src/transport/session.cc).
`Feed` appends the bytes that arrived, hands every complete line over as one
frame and keeps what follows the last newline; it stops at a line longer than
its limit, at one that is no frame of this protocol and at one the handler
declines.

`ReadsStream` says what a stream yields: the frames of the longest run of lines
that each hold one and are accepted, and why the run ended.  Main result:
`feedAll_flatten`: a reader does just that, however the bytes were cut.
-/
import UAgent.Base.Lines
import UAgent.Core.Json

/-! ### Complete lines -/

namespace Bytes

/-- The lines closed by a newline and what follows the last one, `line` being
read. -/
def cutLines (line : Bytes) : Bytes → List Bytes × Bytes
  | [] => ([], line)
  | c :: s =>
    if c = 0x0a then (line :: (cutLines [] s).1, (cutLines [] s).2) else cutLines (line ++ [c]) s

theorem cutLines_oneLine {s : Bytes} (h : OneLine s) (line : Bytes) :
    cutLines line s = ([], line ++ s) := by
  induction s generalizing line with
  | nil => simp [cutLines]
  | cons c s ih =>
    rw [OneLine, List.mem_cons, not_or] at h
    rw [cutLines, if_neg (Ne.symm h.1), ih h.2, List.append_assoc]
    rfl

theorem cutLines_append_newline {s : Bytes} (h : OneLine s) (line t : Bytes) :
    cutLines line (s ++ 0x0a :: t) = ((line ++ s) :: (cutLines [] t).1, (cutLines [] t).2) := by
  induction s generalizing line with
  | nil => simp [cutLines]
  | cons c s ih =>
    rw [OneLine, List.mem_cons, not_or] at h
    rw [List.cons_append, cutLines, if_neg (Ne.symm h.1), ih h.2, List.append_assoc]
    rfl

/-- What follows the last newline is read on with the next bytes. -/
theorem cutLines_append (line a b : Bytes) :
    cutLines line (a ++ b) =
      ((cutLines line a).1 ++ (cutLines (cutLines line a).2 b).1,
        (cutLines (cutLines line a).2 b).2) := by
  induction a generalizing line with
  | nil => rfl
  | cons c a ih =>
    rw [List.cons_append, cutLines, cutLines]
    split_ifs
    · rw [ih]
      rfl
    · exact ih _

/-- The line being read stays at the front of the first line or of the rest. -/
theorem cutLines_starts (line s : Bytes) :
    (∃ first others, (cutLines line s).1 = first :: others ∧ line <+: first) ∨
      (cutLines line s).1 = [] ∧ line <+: (cutLines line s).2 := by
  induction s generalizing line with
  | nil => exact .inr ⟨rfl, List.prefix_rfl⟩
  | cons c s ih =>
    rw [cutLines]
    split_ifs
    · exact .inl ⟨line, _, rfl, List.prefix_rfl⟩
    · have hgrown : line <+: line ++ [c] := List.prefix_append _ _
      rcases ih (line ++ [c]) with ⟨first, others, hlines, hfirst⟩ | ⟨hnone, hrest⟩
      · exact .inl ⟨first, others, hlines, hgrown.trans hfirst⟩
      · exact .inr ⟨hnone, hgrown.trans hrest⟩

theorem oneLine_cutLines {line : Bytes} (h : OneLine line) (s : Bytes) :
    OneLine (cutLines line s).2 := by
  induction s generalizing line with
  | nil => exact h
  | cons c s ih =>
    rw [cutLines]
    split_ifs with hc
    · exact ih List.not_mem_nil
    · exact ih (Json.oneLine_append h fun hmem => hc (List.mem_singleton.mp hmem).symm)

/-- The lines and the rest make up the text. -/
theorem flatMap_cutLines (line s : Bytes) :
    ((cutLines line s).1.flatMap fun l => l ++ [0x0a]) ++ (cutLines line s).2 = line ++ s := by
  induction s generalizing line with
  | nil => rw [cutLines, List.flatMap_nil, List.nil_append, List.append_nil]
  | cons c s ih =>
    rw [cutLines]
    split_ifs with hc
    · rw [List.flatMap_cons, List.append_assoc, ih, hc, List.append_assoc]
      rfl
    · rw [ih, List.append_assoc]
      rfl

theorem oneLine_of_mem_cutLines {line l s : Bytes} (h : OneLine line)
    (hl : l ∈ (cutLines line s).1) : OneLine l := by
  induction s generalizing line with
  | nil => cases hl
  | cons c s ih =>
    rw [cutLines] at hl
    split_ifs at hl with hc
    · rcases List.mem_cons.mp hl with rfl | hl
      · exact h
      · exact ih List.not_mem_nil hl
    · exact ih (Json.oneLine_append h fun hmem => hc (List.mem_singleton.mp hmem).symm) hl

/-- `find(c, from)`: where the byte stands first, from there on. -/
def findByte (c : UInt8) (s : Bytes) (start : Nat) : Option Nat :=
  ((s.drop start).findIdx? (· = c)).map (start + ·)

theorem findByte_eq_none {c : UInt8} {s : Bytes} {start : Nat} (h : findByte c s start = none) :
    c ∉ s.drop start := by
  rw [findByte, Option.map_eq_none_iff, List.findIdx?_eq_none_iff] at h
  intro hmem
  simpa using h c hmem

theorem findByte_eq_some {c : UInt8} {s : Bytes} {start stop : Nat} (h : findByte c s start = some stop) :
    ∃ run tail, s.drop start = run ++ c :: tail ∧ c ∉ run ∧ stop = start + run.length := by
  rw [findByte, Option.map_eq_some_iff] at h
  obtain ⟨i, hi, rfl⟩ := h
  rw [List.findIdx?_eq_some_iff_getElem] at hi
  obtain ⟨hlt, hc, hbefore⟩ := hi
  have hc : (s.drop start)[i] = c := by simpa using hc
  have hlength : ((s.drop start).take i).length = i := by
    rw [List.length_take]
    exact min_eq_left hlt.le
  refine ⟨(s.drop start).take i, (s.drop start).drop (i + 1), ?_, ?_, by rw [hlength]⟩
  · rw [← hc, ← List.drop_eq_getElem_cons hlt, List.take_append_drop]
  · intro hmem
    obtain ⟨j, hj, hget⟩ := List.mem_iff_getElem.mp hmem
    rw [hlength] at hj
    rw [List.getElem_take] at hget
    simpa [hget] using hbefore j hj

theorem findByte_bounds {c : UInt8} {s : Bytes} {start stop : Nat}
    (h : findByte c s start = some stop) : start ≤ stop ∧ stop < s.length := by
  obtain ⟨run, tail, hdrop, -, rfl⟩ := findByte_eq_some h
  have hlength := congrArg List.length hdrop
  rw [List.length_drop, List.length_append, List.length_cons] at hlength
  omega

/-- The text up to the byte found, and what follows it. -/
theorem findByte_line {c : UInt8} {s : Bytes} {start stop : Nat}
    (h : findByte c s start = some stop) :
    c ∉ (s.take stop).drop start ∧
      s.drop start = (s.take stop).drop start ++ c :: s.drop (stop + 1) := by
  obtain ⟨run, tail, hdrop, hrun, rfl⟩ := findByte_eq_some h
  have htake : (s.take (start + run.length)).drop start = run := by
    rw [List.drop_take, Nat.add_sub_cancel_left, hdrop, List.take_left]
  have htail : s.drop (start + run.length + 1) = tail := by
    rw [Nat.add_assoc, ← List.drop_drop, hdrop, ← List.drop_drop, List.drop_left]
    rfl
  rw [htake, htail]
  exact ⟨hrun, hdrop⟩

/-- A part known not to hold the byte may be skipped. -/
theorem findByte_max {c : UInt8} {s : Bytes} {known : Nat} (h : c ∉ s.take known) (start : Nat) :
    findByte c s (max start known) = findByte c s start := by
  rcases le_total known start with hle | hle
  · rw [max_eq_left hle]
  · rw [max_eq_right hle, findByte, findByte]
    have hsplit : s.drop start = (s.drop start).take (known - start) ++ s.drop known := by
      have hdrop : (s.drop start).drop (known - start) = s.drop known := by
        rw [List.drop_drop, Nat.add_sub_cancel' hle]
      rw [← hdrop, List.take_append_drop]
    have hnone : ((s.drop start).take (known - start)).findIdx? (· = c) = none := by
      rw [List.findIdx?_eq_none_iff]
      intro x hx
      rw [List.take_drop, Nat.add_sub_cancel' hle] at hx
      have hne : x ≠ c := fun heq => h (heq ▸ List.mem_of_mem_drop hx)
      simpa using hne
    rcases Nat.lt_or_ge s.length known with hlong | hshort
    · have hend : s.drop known = [] := List.drop_eq_nil_of_le hlong.le
      rw [hsplit, hend, List.append_nil, hnone]
      rfl
    · have hlength : ((s.drop start).take (known - start)).length = known - start := by
        rw [List.length_take, List.length_drop]
        omega
      rw [hsplit, List.findIdx?_append, hnone, hlength, Option.none_or, Option.map_map]
      congr 1
      funext i
      show known + i = start + (i + (known - start))
      omega

end Bytes

namespace UAgent

open Bytes

/-! ### The reader -/

/-- The protocol's version. -/
def kProtocol : Int64 := 2

/-- Why `Feed` returned false. -/
inductive FrameError where
  | tooLong
  | notFrame
  | declined
deriving DecidableEq

structure FrameBuffer where
  limit : Nat
  pending : Bytes := []
  /-- The part of `pending` known to hold no newline. -/
  scanned : Nat := 0
deriving DecidableEq

/-- What a reader has handed to its handler, the handler's own state and why
the reading stopped. -/
structure Reading (σ : Type*) where
  state : σ
  handed : List Json := []
  error : Option FrameError := none

section

variable {σ : Type*} (parse : Bytes → Option Json) (receive : σ → Json → σ × Bool)

/-- A line's text as a frame of this protocol. -/
def frameOf (line : Bytes) : Option Json :=
  (parse line).filter fun frame =>
    frame.isObject && jsonValueInteger (-2 ^ 31) (2 ^ 31 - 1) frame (lit "v") 0 == kProtocol.toInt

/-- One complete line: too long, no frame, or handed over. -/
def readLine (limit : Nat) (r : Reading σ) (line : Bytes) : Reading σ :=
  if line.length > limit then { r with error := some .tooLong }
  else
    match frameOf parse line with
    | none => { r with error := some .notFrame }
    | some frame =>
      { state := (receive r.state frame).1
        handed := r.handed ++ [frame]
        error := if (receive r.state frame).2 then none else some .declined }

namespace FrameBuffer

/-- The loop of `Feed`: where the first line that is not complete begins. -/
def readFrom (b : FrameBuffer) (begin : Nat) (r : Reading σ) : Reading σ × Nat :=
  match _h : findByte 0x0a b.pending (max begin b.scanned) with
  | none => (r, begin)
  | some stop =>
    let read := readLine parse receive b.limit r ((b.pending.take stop).drop begin)
    if read.error.isSome then (read, begin) else readFrom b (stop + 1) read
termination_by b.pending.length - begin
decreasing_by
  have := findByte_bounds _h
  omega

/-- `Feed`. -/
def feed (b : FrameBuffer) (r : Reading σ) (bytes : Bytes) : Reading σ × FrameBuffer :=
  let b := { b with pending := b.pending ++ bytes }
  let read := readFrom parse receive b 0 r
  if read.1.error.isSome then (read.1, b)
  else
    let pending := b.pending.drop read.2
    ({ read.1 with error := if pending.length ≤ b.limit then none else some .tooLong },
      { b with pending, scanned := pending.length })

/-- A connection: chunk after chunk until `Feed` returns false. -/
def feedAll (b : FrameBuffer) (r : Reading σ) : List Bytes → Reading σ
  | [] => r
  | bytes :: chunks =>
    let fed := feed parse receive b r bytes
    if fed.1.error.isSome then fed.1 else feedAll fed.2 fed.1 chunks

end FrameBuffer

/-! ### What a stream yields -/

section Yield

/-- The text of a frame of this protocol: an object whose `v` is its version. -/
def IsFrame (line : Bytes) (frame : Json) : Prop :=
  parse line = some frame ∧ frame.isObject = true ∧
    (frame.get? (lit "v") = some (.int 2) ∨ frame.get? (lit "v") = some (.uint 2))

/-- A line of at most the limit that holds a frame. -/
structure TakesLine (limit : Nat) (line : Bytes) (frame : Json) : Prop where
  oneLine : OneLine line
  fits : line.length ≤ limit
  frame : IsFrame parse line frame

/-- The handler accepts some frames one after another. -/
def Accepts : σ → List Json → σ → Prop
  | s, [], s' => s' = s
  | s, frame :: frames, s' => (receive s frame).2 = true ∧ Accepts (receive s frame).1 frames s'

/-- How a reading ends that has handed over `frames` and left the handler at
`s`, by what follows in the stream. -/
inductive StopsAt (limit : Nat) (s : σ) (frames : List Json) : Bytes → Reading σ → Prop
  /-- No further newline, and nothing wrong so far. -/
  | rest {tail : Bytes} : OneLine tail → tail.length ≤ limit →
      StopsAt limit s frames tail ⟨s, frames, none⟩
  | tooLong {tail : Bytes} : limit < (untilFirst 0x0a tail).length →
      StopsAt limit s frames tail ⟨s, frames, some .tooLong⟩
  | notFrame {line more : Bytes} : OneLine line → line.length ≤ limit →
      (∀ frame, ¬IsFrame parse line frame) →
      StopsAt limit s frames (line ++ 0x0a :: more) ⟨s, frames, some .notFrame⟩
  | declined {line more : Bytes} {frame : Json} : TakesLine parse limit line frame →
      (receive s frame).2 = false →
      StopsAt limit s frames (line ++ 0x0a :: more)
        ⟨(receive s frame).1, frames ++ [frame], some .declined⟩

/-- What a stream of bytes yields: the frames of the longest run of lines that
can be taken and are accepted, and why it is the longest. -/
def ReadsStream (limit : Nat) (s : σ) (stream : Bytes) (r : Reading σ) : Prop :=
  ∃ lines frames tail s',
    stream = (lines.flatMap fun line => line ++ [0x0a]) ++ tail ∧
      List.Forall₂ (TakesLine parse limit) lines frames ∧
      Accepts receive s frames s' ∧ StopsAt parse receive limit s' frames tail r

end Yield

/-! ### A whole stream -/

/-- Complete lines in order, until one stops the reading. -/
def readLines (limit : Nat) : Reading σ → List Bytes → Reading σ :=
  List.foldl fun r line => if r.error.isSome then r else readLine parse receive limit r line

/-- What follows the last newline must not be too long either. -/
def readRest (limit : Nat) (r : Reading σ) (rest : Bytes) : Reading σ :=
  if r.error.isSome ∨ rest.length ≤ limit then r else { r with error := some .tooLong }

/-! ### The loop reads lines -/

variable {parse receive}

theorem readLines_cons (limit : Nat) {r : Reading σ} (hr : r.error = none) (line : Bytes)
    (lines : List Bytes) :
    readLines parse receive limit r (line :: lines) =
      readLines parse receive limit (readLine parse receive limit r line) lines := by
  rw [readLines, List.foldl_cons, hr]
  rfl

theorem readLines_append (limit : Nat) (r : Reading σ) (a b : List Bytes) :
    readLines parse receive limit r (a ++ b) =
      readLines parse receive limit (readLines parse receive limit r a) b :=
  List.foldl_append

/-- A reading that stopped reads nothing more. -/
theorem readLines_stopped (limit : Nat) {r : Reading σ} (hr : r.error.isSome)
    (lines : List Bytes) : readLines parse receive limit r lines = r := by
  induction lines with
  | nil => rfl
  | cons line lines ih =>
    rw [readLines, List.foldl_cons, if_pos hr]
    exact ih

theorem readRest_stopped (limit : Nat) {r : Reading σ} (hr : r.error.isSome) (rest : Bytes) :
    readRest limit r rest = r := by
  rw [readRest, if_pos (.inl hr)]

theorem readRest_of_going {limit : Nat} {r : Reading σ} {rest : Bytes}
    (h : (readRest limit r rest).error = none) : readRest limit r rest = r := by
  rw [readRest] at h ⊢
  split_ifs at h ⊢ with hfits
  rfl

theorem frameOf_eq_some_iff {line : Bytes} {frame : Json} :
    frameOf parse line = some frame ↔ IsFrame parse line frame := by
  rw [frameOf, Option.filter_eq_some_iff, IsFrame, Bool.and_eq_true]
  refine and_congr_right fun _ => and_congr_right fun _ => ?_
  have hversion : kProtocol.toInt = 2 := by decide
  rw [beq_iff_eq, hversion, jsonValueInteger]
  cases hv : frame.get? (lit "v") with
  | none => simp
  | some value =>
    cases value with
    | uint n =>
      have hn : n.toNat = 2 ↔ n = 2 := by
        rw [← UInt64.toNat_inj]
        rfl
      have hread : (if (n.toNat : Int) ≤ 2 ^ 31 - 1 then (n.toNat : Int) else 0) = 2 ↔ n.toNat = 2 := by
        split_ifs <;> omega
      simpa using hread.trans hn
    | int n =>
      have hn : n.toInt = 2 ↔ n = 2 := by
        rw [← Int64.toInt_inj]
        rfl
      have hread : (if n.toInt < -2 ^ 31 ∨ 2 ^ 31 - 1 < n.toInt then 0 else n.toInt) = 2 ↔
          n.toInt = 2 := by
        split_ifs <;> omega
      simpa using hread.trans hn
    | _ => simp

/-- **What lines yield.**  The lines that can be taken and are accepted come
first, and the next one, or the rest, says how the reading ends. -/
theorem readLines_stops {limit : Nat} {lines : List Bytes} (hlines : ∀ line ∈ lines, OneLine line)
    {rest : Bytes} (hrest : OneLine rest) {r : Reading σ} (hr : r.error = none) :
    ∃ taken frames tail s',
      (lines.flatMap fun line => line ++ [0x0a]) ++ rest =
          (taken.flatMap fun line => line ++ [0x0a]) ++ tail ∧
        List.Forall₂ (TakesLine parse limit) taken frames ∧ Accepts receive r.state frames s' ∧
        StopsAt parse receive limit s' (r.handed ++ frames) tail
          (readRest limit (readLines parse receive limit r lines) rest) := by
  induction lines generalizing r with
  | nil =>
    refine ⟨[], [], rest, r.state, rfl, .nil, rfl, ?_⟩
    rw [readLines, List.foldl_nil, List.append_nil, readRest, hr]
    -- The lines are used up: the rest waits, or is too long already.
    split_ifs with hfits
    · obtain ⟨state, handed, error⟩ := r
      obtain rfl : error = none := hr
      exact .rest hrest (hfits.resolve_left Bool.false_ne_true)
    · refine .tooLong ?_
      rw [untilFirst_eq_self hrest]
      exact not_le.mp fun hle => hfits (.inr hle)
  | cons line lines ih =>
    have hone := hlines line List.mem_cons_self
    have hsplit : ((line :: lines).flatMap fun line => line ++ [0x0a]) ++ rest =
        line ++ 0x0a :: ((lines.flatMap fun line => line ++ [0x0a]) ++ rest) := by
      rw [List.flatMap_cons, List.append_assoc, List.append_assoc]
      rfl
    rw [readLines_cons _ hr, hsplit, readLine]
    split_ifs with hlong
    · refine ⟨[], [], line ++ 0x0a :: ((lines.flatMap fun line => line ++ [0x0a]) ++ rest), r.state,
        rfl, .nil, rfl, ?_⟩
      rw [readLines_stopped _ rfl, readRest_stopped _ rfl, List.append_nil]
      refine .tooLong ?_
      rw [untilFirst_append_cons hone]
      exact hlong
    · -- The line is within the limit: it holds a frame or stops the reading.
      rw [gt_iff_lt, not_lt] at hlong
      cases hframe : frameOf parse line with
      | none =>
        refine ⟨[], [], line ++ 0x0a :: ((lines.flatMap fun line => line ++ [0x0a]) ++ rest), r.state,
          rfl, .nil, rfl, ?_⟩
        dsimp only
        rw [readLines_stopped _ rfl, readRest_stopped _ rfl, List.append_nil]
        refine .notFrame hone hlong fun frame h => ?_
        rw [frameOf_eq_some_iff.mpr h] at hframe
        cases hframe
      | some frame =>
        have htakes : TakesLine parse limit line frame :=
          ⟨hone, hlong, frameOf_eq_some_iff.mp hframe⟩
        dsimp only
        cases haccepted : (receive r.state frame).2 with
        | false =>
          refine ⟨[], [], line ++ 0x0a :: ((lines.flatMap fun line => line ++ [0x0a]) ++ rest),
            r.state, rfl, .nil, rfl, ?_⟩
          rw [readLines_stopped _ rfl, readRest_stopped _ rfl, List.append_nil]
          exact .declined htakes haccepted
        | true =>
          -- It is taken, and the next lines are read from the state it leaves.
          obtain ⟨taken, frames, tail, s', htext, htaken, haccepts, hstops⟩ :=
            @ih (fun l hl => hlines l (List.mem_cons_of_mem _ hl))
              ⟨(receive r.state frame).1, r.handed ++ [frame], none⟩ rfl
          refine ⟨line :: taken, frame :: frames, tail, s', ?_, .cons htakes htaken,
            ⟨haccepted, haccepts⟩, ?_⟩
          · rw [htext, List.flatMap_cons, List.append_assoc, List.append_assoc]
            rfl
          · rw [List.append_cons]
            exact hstops

/-- A rest that is too long stops the reading wherever its line ends. -/
theorem readRest_long (limit : Nat) {r : Reading σ} {line : Bytes} (h : limit < line.length)
    (s : Bytes) :
    readRest limit (readLines parse receive limit r (cutLines line s).1) (cutLines line s).2 =
      readRest limit r line := by
  by_cases hr : r.error.isSome
  · rw [readLines_stopped _ hr, readRest_stopped _ hr, readRest_stopped _ hr]
  · have hnone : r.error = none := by simpa using hr
    have hshort : ∀ {t : Bytes}, line <+: t → ¬ t.length ≤ limit := fun ht => by
      have := ht.length_le
      omega
    have htoo : ∀ {t : Bytes}, line <+: t →
        readRest limit r t = { r with error := some .tooLong } := fun ht => by
      rw [readRest, if_neg]
      rintro (hsome | hle)
      · exact hr hsome
      · exact hshort ht hle
    rw [htoo List.prefix_rfl]
    rcases cutLines_starts line s with ⟨first, others, hlines, hfirst⟩ | ⟨hlines, hrest⟩
    · have hline : readLine parse receive limit r first = { r with error := some .tooLong } :=
        if_pos (not_le.mp (hshort hfirst))
      rw [hlines, readLines_cons _ hnone, hline, readLines_stopped _ rfl, readRest_stopped _ rfl]
    · rw [hlines]
      exact htoo hrest

namespace FrameBuffer

theorem readFrom_none {b : FrameBuffer} {begin : Nat} (r : Reading σ)
    (h : findByte 0x0a b.pending (max begin b.scanned) = none) :
    readFrom parse receive b begin r = (r, begin) := by
  rw [readFrom]
  split
  · rfl
  · rename_i hsome
    rw [h] at hsome
    exact absurd hsome (by simp)

theorem readFrom_some {b : FrameBuffer} {begin stop : Nat} (r : Reading σ)
    (h : findByte 0x0a b.pending (max begin b.scanned) = some stop) :
    readFrom parse receive b begin r =
      let read := readLine parse receive b.limit r ((b.pending.take stop).drop begin)
      if read.error.isSome then (read, begin) else readFrom parse receive b (stop + 1) read := by
  rw [readFrom]
  split
  · rename_i hnone
    rw [h] at hnone
    exact absurd hnone (by simp)
  · rename_i found hsome
    rw [h, Option.some_inj] at hsome
    subst hsome
    rfl

/-- **The loop.**  From any line start it reads the complete lines there are
and ends at the start of the one that is not. -/
theorem readFrom_eq {b : FrameBuffer} (h : (0x0a : UInt8) ∉ b.pending.take b.scanned) (begin : Nat)
    (r : Reading σ) (hr : r.error = none) :
    (readFrom parse receive b begin r).1 =
        readLines parse receive b.limit r (cutLines [] (b.pending.drop begin)).1 ∧
      ((readFrom parse receive b begin r).1.error = none →
        b.pending.drop (readFrom parse receive b begin r).2 =
          (cutLines [] (b.pending.drop begin)).2) := by
  induction begin, r using readFrom.induct parse receive b with
  | case1 begin r hfind =>
    rw [readFrom_none r hfind]
    rw [findByte_max h] at hfind
    rw [cutLines_oneLine (findByte_eq_none hfind)]
    exact ⟨rfl, fun _ => rfl⟩
  | case2 begin r stop hfind read hstop =>
    rw [readFrom_some r hfind, if_pos hstop]
    rw [findByte_max h] at hfind
    obtain ⟨hline, hsplit⟩ := findByte_line hfind
    rw [hsplit, cutLines_append_newline hline, readLines_cons _ hr]
    refine ⟨(readLines_stopped _ hstop _).symm, fun hnone => ?_⟩
    rw [hnone] at hstop
    exact absurd hstop (by simp)
  | case3 begin r stop hfind read hgo ih =>
    rw [readFrom_some r hfind, if_neg hgo]
    rw [findByte_max h] at hfind
    obtain ⟨hline, hsplit⟩ := findByte_line hfind
    rw [hsplit, cutLines_append_newline hline, readLines_cons _ hr]
    exact ih (by simpa using hgo)

/-- A buffer between two chunks: a line not complete yet, wholly scanned. -/
structure Ready (b : FrameBuffer) : Prop where
  line : OneLine b.pending
  scanned : b.scanned = b.pending.length
  fits : b.pending.length ≤ b.limit

/-- One chunk reads the lines it completes, and what remains must fit. -/
theorem feed_eq {b : FrameBuffer} (hb : Ready b) {r : Reading σ} (hr : r.error = none)
    (bytes : Bytes) :
    (feed parse receive b r bytes).1 =
      readRest b.limit
        (readLines parse receive b.limit r (cutLines [] (b.pending ++ bytes)).1)
        (cutLines [] (b.pending ++ bytes)).2 ∧
    ((feed parse receive b r bytes).1.error = none →
      (feed parse receive b r bytes).2.pending = (cutLines [] (b.pending ++ bytes)).2 ∧
      (feed parse receive b r bytes).2.limit = b.limit ∧
      Ready (feed parse receive b r bytes).2) := by
  have hknown : (0x0a : UInt8) ∉ (b.pending ++ bytes).take b.scanned := by
    rw [hb.scanned, List.take_left]
    exact hb.line
  obtain ⟨hread, hrest⟩ := readFrom_eq
    (b := { b with pending := b.pending ++ bytes }) hknown 0 r hr
  simp only [List.drop_zero] at hread hrest
  rw [feed, ← hread]
  by_cases hstop : (readFrom parse receive { b with pending := b.pending ++ bytes } 0 r).1.error.isSome
  · rw [if_pos hstop, readRest_stopped _ hstop]
    refine ⟨rfl, fun hnone => ?_⟩
    rw [hnone] at hstop
    exact absurd hstop (by simp)
  · have hgo : (readFrom parse receive { b with pending := b.pending ++ bytes } 0 r).1.error =
        none := by simpa using hstop
    rw [if_neg hstop, hrest hgo, readRest, hgo]
    by_cases hfits : (cutLines [] (b.pending ++ bytes)).2.length ≤ b.limit
    · simp only [hfits, if_true, or_true, true_implies]
      refine ⟨?_, trivial, trivial, oneLine_cutLines List.not_mem_nil _, rfl, hfits⟩
      rw [← hgo]
    · simp [hfits]

/-- **A run of chunks.**  From a buffer between two chunks, they are read as
the lines of their bytes put behind what it holds. -/
theorem feedAll_eq (chunks : List Bytes) : ∀ {b : FrameBuffer} (_ : Ready b) {r : Reading σ}
    (_ : r.error = none), feedAll parse receive b r chunks =
      readRest b.limit
        (readLines parse receive b.limit r (cutLines [] (b.pending ++ chunks.flatten)).1)
        (cutLines [] (b.pending ++ chunks.flatten)).2 := by
  induction chunks with
  | nil =>
    intro b hb r hr
    rw [List.flatten_nil, List.append_nil, cutLines_oneLine hb.line, readRest]
    exact (if_pos (.inr hb.fits)).symm
  | cons bytes chunks ih =>
    intro b hb r hr
    obtain ⟨hread, hready⟩ := feed_eq hb hr bytes
    rw [List.flatten_cons, ← List.append_assoc, cutLines_append, readLines_append, feedAll]
    by_cases hstop : (feed parse receive b r bytes).1.error.isSome
    · rw [if_pos hstop, hread]
      rw [hread] at hstop
      by_cases hlines :
          (readLines parse receive b.limit r (cutLines [] (b.pending ++ bytes)).1).error.isSome
      · rw [readRest_stopped _ hlines, readLines_stopped _ hlines, readRest_stopped _ hlines]
      · have hlong : b.limit < (cutLines [] (b.pending ++ bytes)).2.length := by
          by_contra hfits
          rw [readRest, if_pos (.inr (not_lt.mp hfits))] at hstop
          exact hlines hstop
        exact (readRest_long _ hlong _).symm
    · have hgo : (feed parse receive b r bytes).1.error = none := by simpa using hstop
      obtain ⟨hpending, hlimit, hb'⟩ := hready hgo
      rw [hread] at hgo
      have hline : OneLine (cutLines [] (b.pending ++ bytes)).2 :=
        oneLine_cutLines List.not_mem_nil _
      rw [if_neg hstop, ih hb' (hread ▸ hgo), hpending, hlimit, cutLines_append,
        cutLines_oneLine hline, List.nil_append, List.nil_append, hread, readRest_of_going hgo]

/-- **Cutting a stream.**  However a stream is cut into chunks, the reader
hands over the frames of its lines, and stops where and why one of them stops
it; so two ways of cutting it make no difference. -/
theorem feedAll_flatten (limit : Nat) (s : σ) (chunks : List Bytes) :
    ReadsStream parse receive limit s chunks.flatten
        (feedAll parse receive { limit } { state := s } chunks) ∧
      ∀ others : List Bytes, others.flatten = chunks.flatten →
        feedAll parse receive { limit } { state := s } others =
          feedAll parse receive { limit } { state := s } chunks := by
  have hready : Ready { limit } := ⟨List.not_mem_nil, rfl, Nat.zero_le _⟩
  have hfed : ∀ chunks : List Bytes, feedAll parse receive { limit } { state := s } chunks =
      readRest limit (readLines parse receive limit { state := s } (cutLines [] chunks.flatten).1)
        (cutLines [] chunks.flatten).2 := fun chunks => feedAll_eq chunks hready rfl
  constructor
  · rw [hfed]
    have hlines : ∀ line ∈ (cutLines [] chunks.flatten).1, OneLine line :=
      fun line hline => oneLine_of_mem_cutLines List.not_mem_nil hline
    obtain ⟨taken, frames, tail, s', hsplit, htaken, haccepts, hstops⟩ :=
      @readLines_stops σ parse receive limit _ hlines _ (oneLine_cutLines List.not_mem_nil _)
        { state := s } rfl
    rw [flatMap_cutLines, List.nil_append] at hsplit
    exact ⟨taken, frames, tail, s', hsplit, htaken, haccepts, hstops⟩
  · intro others hsame
    rw [hfed, hfed, hsame]

end FrameBuffer

end

end UAgent
