/-
UAgent/Web/TerminalReads.lean

What a viewer of a terminal reads (src/web/terminal.cc), over all orders of
output, ends, reads and other viewers.

The kept text and the two counters are what the stream kept at any time
(`Consistent`), so a `Read` is a read of the whole output at a position
(`read_eq`).  From this each step keeps what has been read in order
(`Replayed`), and so does every run.
-/
import UAgent.Web.Terminal
import Mathlib.Data.List.Chain

namespace UAgent

open Bytes Scrollback

/-! ### What is promised of the reads -/

/-- The reads return the output from the replay point on, a part each, and an
end only behind all of it. -/
structure Replayed (readings : List TerminalReading) (printed : Bytes) : Prop where
  sound : ∀ t ∈ takings readings,
    t.Sound kWebTerminalMessageBytes ∧ t.stream <+: printed
  chain : (takings readings).IsChain (Follows kWebTerminalScrollbackBytes)
  first : ∀ t ∈ (takings readings).head?, t.start = replayPoint t.stream
  /-- A woken read brings nothing. -/
  woken : ∀ r ∈ readings, r.woken = true → r.out.bytes = [] ∧ r.out.ended = false
  ended : ∀ r ∈ readings, r.woken = false → (r.out.ended = true ↔
    r.finished = true ∧ r.start + r.out.bytes.length = r.printed.length)
  final : ∀ r ∈ readings, r.out.ended = true → r.printed = printed

/-- The shell's text and counter are those of what it printed, and the viewer
stands where it stopped reading. -/
structure Consistent (s : TerminalRun) : Prop where
  output : s.shell.output = kept kWebTerminalScrollbackBytes s.printed
  produced : s.shell.produced = s.printed.length
  finished : s.shell.ended = s.finished
  fresh : (∀ viewer, s.viewer = some viewer → viewer.replayed = false) → takings s.readings = []
  cursor : ∀ viewer, s.viewer = some viewer → viewer.replayed = true →
    ∃ t, (takings s.readings).getLast? = some t ∧ t.stop = viewer.cursor
  /-- Nothing is printed behind a reported end. -/
  closed : ∀ r ∈ s.readings, r.out.ended = true → s.finished = true
  replayed : Replayed s.readings s.printed

/-! ### The shell -/

section Shell

variable {shell : TerminalShell} {printed : Bytes}

theorem TerminalShell.drain_output (bytes : Bytes)
    (h : shell.output = kept kWebTerminalScrollbackBytes printed) :
    (shell.drain bytes).output = kept kWebTerminalScrollbackBytes (printed ++ bytes) := by
  rw [kept_append, ← h]
  show (if _ then _ else _) = _
  split_ifs with hlong
  · rfl
  · have hnone : dropped kWebTerminalScrollbackBytes (shell.output ++ bytes) = 0 := by
      rw [dropped]
      omega
    rw [kept, hnone, List.drop_zero]

/-- What is kept begins behind what was dropped. -/
theorem first_kept (houtput : shell.output = kept kWebTerminalScrollbackBytes printed)
    (hproduced : shell.produced = printed.length) :
    shell.produced - shell.output.length = dropped kWebTerminalScrollbackBytes printed := by
  have hlength := dropped_add_length_kept kWebTerminalScrollbackBytes printed
  rw [houtput, hproduced]
  omega

theorem dropped_le_replayPoint (printed : Bytes) :
    dropped kWebTerminalScrollbackBytes printed ≤ replayPoint printed := by
  unfold replayPoint
  dsimp only
  split_ifs
  · cases (kept kWebTerminalScrollbackBytes printed).findIdx? (· = 0x0a) with
    | none => exact le_rfl
    | some line => exact Nat.le_add_right _ _
  · exact le_rfl

theorem replayFrom_eq (houtput : shell.output = kept kWebTerminalScrollbackBytes printed)
    (hproduced : shell.produced = printed.length) :
    TerminalViewer.replayFrom shell = replayPoint printed := by
  rw [TerminalViewer.replayFrom, first_kept houtput hproduced, houtput]
  rfl

/-- Where a read begins. -/
def startOf (viewer : TerminalViewer) (printed : Bytes) : Nat :=
  max (if viewer.replayed then viewer.cursor else replayPoint printed)
    (dropped kWebTerminalScrollbackBytes printed)

/-- What a read takes, as one of all that was printed. -/
def takingOf (viewer : TerminalViewer) (printed taken : Bytes) : Taking UInt8 :=
  ⟨printed, startOf viewer printed, taken⟩

/-- A `Read` is one of all that was printed. -/
theorem read_eq {viewer : TerminalViewer} (hwoken : viewer.woken = false)
    (houtput : shell.output = kept kWebTerminalScrollbackBytes printed)
    (hproduced : shell.produced = printed.length) :
    viewer.read shell =
      (let start := startOf viewer printed
       let bytes := (printed.drop start).take kWebTerminalMessageBytes
       let last := start + bytes.length = printed.length
       ({ bytes
          ended := last && shell.ended
          replaced := !shell.ended && shell.viewer ≠ viewer.generation
          code := if last then shell.code else -1 },
        { viewer with cursor := start + bytes.length, replayed := true })) := by
  have hstart : max (if viewer.replayed then viewer.cursor else TerminalViewer.replayFrom shell)
      (shell.produced - shell.output.length) = startOf viewer printed := by
    rw [first_kept houtput hproduced, replayFrom_eq houtput hproduced, startOf]
  have hbytes : shell.output.drop
      (startOf viewer printed - (shell.produced - shell.output.length)) =
        printed.drop (startOf viewer printed) := by
    rw [first_kept houtput hproduced, houtput]
    exact drop_kept (le_max_right _ _)
  rw [TerminalViewer.read, if_neg (by simp [hwoken])]
  dsimp only
  rw [hstart, hbytes, hproduced]

end Shell

/-! ### One step -/

section Step

variable {s : TerminalRun}

theorem takings_append (readings : List TerminalReading) (r : TerminalReading) :
    takings (readings ++ [r]) =
      takings readings ++ if r.woken then [] else [⟨r.printed, r.start, r.out.bytes⟩] := by
  rw [takings, takings, List.filter_append, List.map_append]
  cases hwoken : r.woken <;> simp [hwoken]

theorem Replayed.grown {readings : List TerminalReading} {printed : Bytes} (bytes : Bytes)
    (hopen : ∀ r ∈ readings, r.out.ended = false) (h : Replayed readings printed) :
    Replayed readings (printed ++ bytes) where
  sound t ht := ⟨(h.sound t ht).1, (h.sound t ht).2.trans (List.prefix_append _ _)⟩
  chain := h.chain
  first := h.first
  woken := h.woken
  ended := h.ended
  final r hr hend := by
    rw [hopen r hr] at hend
    cases hend

theorem Consistent.print (h : Consistent s) (bytes : Bytes) :
    Consistent (s.step (.print bytes)) := by
  rw [TerminalRun.step]
  split_ifs with hended
  · exact h
  · refine ⟨TerminalShell.drain_output bytes h.output, ?_, h.finished, h.fresh, h.cursor, h.closed,
      ?_⟩
    · show s.shell.produced + bytes.length = _
      rw [h.produced, List.length_append]
    · refine h.replayed.grown bytes fun r hr => ?_
      rcases hout : r.out.ended
      · rfl
      · exact absurd (h.finished.trans (h.closed r hr hout)) hended

/-- Steps that only change who views the shell. -/
theorem Consistent.of_shell (h : Consistent s) {shell : TerminalShell}
    (houtput : shell.output = s.shell.output) (hproduced : shell.produced = s.shell.produced)
    (hended : shell.ended = s.shell.ended) : Consistent { s with shell } where
  output := houtput.trans h.output
  produced := hproduced.trans h.produced
  finished := hended.trans h.finished
  fresh := h.fresh
  cursor := h.cursor
  closed := h.closed
  replayed := h.replayed

theorem Consistent.finish (h : Consistent s) (code : Int) : Consistent (s.step (.finish code)) := by
  have hshell : (s.shell.finish code).output = s.shell.output ∧
      (s.shell.finish code).produced = s.shell.produced ∧ (s.shell.finish code).ended = true := by
    unfold TerminalShell.finish
    split_ifs with hended
    · exact ⟨rfl, rfl, hended⟩
    · exact ⟨rfl, rfl, rfl⟩
  obtain ⟨houtput, hproduced, hended⟩ := hshell
  exact ⟨houtput.trans h.output, hproduced.trans h.produced, hended, h.fresh, h.cursor,
    fun _ _ _ => rfl, h.replayed⟩

theorem TerminalShell.attach_spec {shell next : TerminalShell} {viewer : TerminalViewer}
    (h : shell.attach = some (next, viewer)) :
    (next.output = shell.output ∧ next.produced = shell.produced ∧ next.ended = shell.ended) ∧
      viewer.replayed = false := by
  unfold TerminalShell.attach at h
  dsimp only at h
  split_ifs at h with hrefused
  obtain ⟨rfl, rfl⟩ := Prod.mk.inj (Option.some.inj h)
  exact ⟨⟨rfl, rfl, rfl⟩, rfl⟩

theorem Consistent.connect (h : Consistent s) : Consistent (s.step .connect) := by
  rw [TerminalRun.step]
  rcases hviewer : s.viewer with - | viewer
  · rcases hattach : s.shell.attach with - | ⟨shell, viewer⟩
    · exact h
    · obtain ⟨⟨houtput, hproduced, hended⟩, hnew⟩ := TerminalShell.attach_spec hattach
      have hshell := h.of_shell houtput hproduced hended
      refine ⟨hshell.output, hshell.produced, hshell.finished, fun _ => ?_, ?_, hshell.closed,
        hshell.replayed⟩
      · exact h.fresh fun viewer hsome => by rw [hviewer] at hsome; cases hsome
      · intro viewer' hsome hreplayed
        obtain rfl : viewer = viewer' := Option.some.inj hsome
        rw [hnew] at hreplayed
        cases hreplayed
  · exact h

theorem Consistent.wake (h : Consistent s) : Consistent (s.step .wake) := by
  refine ⟨h.output, h.produced, h.finished, fun hnew => h.fresh fun viewer hviewer => ?_, ?_,
    h.closed, h.replayed⟩
  · exact hnew { viewer with woken := true } (by simp [TerminalRun.step, hviewer])
  · intro viewer hviewer hreplayed
    obtain ⟨viewer', hsome, rfl⟩ := Option.map_eq_some_iff.mp hviewer
    exact h.cursor viewer' hsome hreplayed

/-- One read of a viewer that was not woken goes on where the last stopped. -/
theorem Consistent.follows (h : Consistent s) {viewer : TerminalViewer}
    (hviewer : s.viewer = some viewer) (taken : Bytes) :
    (takings s.readings ++ [takingOf viewer s.printed taken]).IsChain
        (Follows kWebTerminalScrollbackBytes) ∧
      ∀ t ∈ (takings s.readings ++ [takingOf viewer s.printed taken]).head?,
        t.start = replayPoint t.stream := by
  cases hreplayed : viewer.replayed with
  | false =>
    have hnone := h.fresh fun viewer' hsome => by
      obtain rfl : viewer = viewer' := Option.some.inj (hviewer.symm.trans hsome)
      exact hreplayed
    rw [hnone, List.nil_append]
    refine ⟨List.IsChain.singleton _, fun t ht => ?_⟩
    obtain rfl := Option.some.inj ht
    simp [takingOf, startOf, hreplayed, dropped_le_replayPoint]
  | true =>
    obtain ⟨last, hlast, hstop⟩ := h.cursor viewer hviewer hreplayed
    refine ⟨?_, ?_⟩
    · rw [List.isChain_append]
      refine ⟨h.replayed.chain, List.IsChain.singleton _, fun t ht t' ht' => ?_⟩
      rw [hlast] at ht
      obtain rfl := Option.some.inj ht
      obtain rfl := Option.some.inj ht'
      refine ⟨(h.replayed.sound last (List.mem_of_getLast? hlast)).2, ?_⟩
      simp [takingOf, startOf, hreplayed, hstop]
    · rcases hall : takings s.readings with - | ⟨first, rest⟩
      · rw [hall] at hlast
        cases hlast
      · have hfirst := h.replayed.first
        rwa [hall] at hfirst

/-- A read of a viewer that was woken brings nothing. -/
theorem Consistent.readWoken (h : Consistent s) {viewer : TerminalViewer}
    (hviewer : s.viewer = some viewer) (start : Nat) :
    Consistent { s with
      viewer := some viewer
      readings := s.readings ++ [⟨s.printed, start, s.finished, true, {}⟩] } := by
  have hsame : takings (s.readings ++ [⟨s.printed, start, s.finished, true, {}⟩]) =
      takings s.readings := by
    rw [takings_append, if_pos rfl, List.append_nil]
  obtain ⟨hsound, hchain, hfirst, hwoken, hended, hfinal⟩ := h.replayed
  -- No part of the output is taken, so only what is said of each read is new.
  refine ⟨h.output, h.produced, h.finished, ?_, ?_, ?_, ?_, ?_, ?_, ?_, ?_, ?_⟩
  · intro hnew
    rw [hsame]
    exact h.fresh (hviewer ▸ hnew)
  · rw [hsame, ← hviewer]
    exact h.cursor
  · intro r hr hend
    rcases List.mem_append.mp hr with hr | hr
    · exact h.closed r hr hend
    · rw [List.mem_singleton.mp hr] at hend
      cases hend
  · rwa [hsame]
  · rwa [hsame]
  · rwa [hsame]
  · intro r hr hrwoken
    rcases List.mem_append.mp hr with hr | hr
    · exact hwoken r hr hrwoken
    · rw [List.mem_singleton.mp hr]
      exact ⟨rfl, rfl⟩
  · intro r hr hrwoken
    rcases List.mem_append.mp hr with hr | hr
    · exact hended r hr hrwoken
    · rw [List.mem_singleton.mp hr] at hrwoken
      cases hrwoken
  · intro r hr hend
    rcases List.mem_append.mp hr with hr | hr
    · exact hfinal r hr hend
    · rw [List.mem_singleton.mp hr] at hend
      cases hend

/-- A read of one that was not takes the next part. -/
theorem Consistent.readNext (h : Consistent s) {viewer : TerminalViewer}
    (hviewer : s.viewer = some viewer) {out : TerminalOutput} {next : TerminalViewer}
    (hbytes : out.bytes = (s.printed.drop (startOf viewer s.printed)).take kWebTerminalMessageBytes)
    (hended : out.ended = true ↔
      s.finished = true ∧ startOf viewer s.printed + out.bytes.length = s.printed.length)
    (hcursor : next.cursor = startOf viewer s.printed + out.bytes.length)
    (hnext : next.replayed = true) :
    Consistent { s with
      viewer := some next
      readings := s.readings ++
        [⟨s.printed, startOf viewer s.printed, s.finished, false, out⟩] } := by
  have hmore : takings (s.readings ++
      [⟨s.printed, startOf viewer s.printed, s.finished, false, out⟩]) =
        takings s.readings ++ [takingOf viewer s.printed out.bytes] := by
    rw [takings_append, if_neg Bool.false_ne_true]
    rfl
  -- The part that is taken begins where the last one ended.
  obtain ⟨hchain, hfirst⟩ := h.follows hviewer out.bytes
  refine ⟨h.output, h.produced, h.finished, ?_, ?_, ?_, ?_, ?_, ?_, ?_, ?_, ?_⟩
  · intro hnew
    have hnot := hnew next rfl
    rw [hnext] at hnot
    cases hnot
  · intro viewer' hviewer' _
    obtain rfl : next = viewer' := Option.some.inj hviewer'
    rw [hmore]
    exact ⟨_, List.getLast?_concat, hcursor.symm⟩
  · intro r hr hend
    rcases List.mem_append.mp hr with hr | hr
    · exact h.closed r hr hend
    · rw [List.mem_singleton.mp hr] at hend
      exact (hended.mp hend).1
  · rw [hmore]
    intro t ht
    rcases List.mem_append.mp ht with ht | ht
    · exact h.replayed.sound t ht
    · rw [List.mem_singleton.mp ht]
      exact ⟨hbytes, List.prefix_refl _⟩
  · rwa [hmore]
  · rwa [hmore]
  · intro r hr hrwoken
    rcases List.mem_append.mp hr with hr | hr
    · exact h.replayed.woken r hr hrwoken
    · rw [List.mem_singleton.mp hr] at hrwoken
      cases hrwoken
  · intro r hr hrwoken
    rcases List.mem_append.mp hr with hr | hr
    · exact h.replayed.ended r hr hrwoken
    · rw [List.mem_singleton.mp hr]
      exact hended
  · intro r hr hend
    rcases List.mem_append.mp hr with hr | hr
    · exact h.replayed.final r hr hend
    · rw [List.mem_singleton.mp hr]

theorem Consistent.read (h : Consistent s) : Consistent (s.step .read) := by
  rw [TerminalRun.step]
  rcases hviewer : s.viewer with - | viewer
  · exact h
  cases hwoken : viewer.woken with
  | true =>
    have hread : viewer.read s.shell = ({}, viewer) := by
      rw [TerminalViewer.read, if_pos hwoken]
    dsimp only
    rw [hread, hwoken]
    exact h.readWoken hviewer _
  | false =>
    dsimp only
    rw [read_eq hwoken h.output h.produced]
    dsimp only
    rw [Nat.add_sub_cancel, hwoken]
    refine h.readNext hviewer rfl ?_ rfl rfl
    rw [h.finished, Bool.and_eq_true, decide_eq_true_eq]
    exact and_comm

/-- Every step. -/
theorem Consistent.step (h : Consistent s) (e : TerminalStep) : Consistent (s.step e) := by
  cases e with
  | print bytes => exact h.print bytes
  | finish code => exact h.finish code
  | attach =>
    rw [TerminalRun.step]
    rcases hattach : s.shell.attach with - | ⟨shell, viewer⟩
    · exact h
    · obtain ⟨⟨houtput, hproduced, hended⟩, -⟩ := TerminalShell.attach_spec hattach
      exact h.of_shell houtput hproduced hended
  | detach generation =>
    refine h.of_shell ?_ ?_ ?_ <;> unfold TerminalShell.detach <;> split_ifs <;> rfl
  | connect => exact h.connect
  | wake => exact h.wake
  | read => exact h.read

end Step

/-! ### Every run -/

theorem consistent_run (inFolder : Bool) (steps : List TerminalStep) :
    Consistent (TerminalRun.run inFolder steps) := by
  have hnothing : Replayed [] [] :=
    ⟨fun _ h => (by cases h), List.IsChain.nil, fun _ h => (by cases h), fun _ h => (by cases h),
      fun _ h => (by cases h), fun _ h => (by cases h)⟩
  have hstart : Consistent { shell := { inFolder } } :=
    ⟨List.drop_nil.symm, rfl, rfl, fun _ => rfl, fun _ h => (by cases h), fun _ h => (by cases h),
      hnothing⟩
  unfold TerminalRun.run
  generalize ({ shell := { inFolder } } : TerminalRun) = s at hstart
  induction steps generalizing s with
  | nil => exact hstart
  | cons e steps ih => exact ih _ (hstart.step e)

/-- The bytes of all reads are those of the reads that were not woken. -/
theorem Replayed.bytes_eq {readings : List TerminalReading} {printed : Bytes}
    (h : Replayed readings printed) :
    readings.flatMap (·.out.bytes) = (takings readings).flatMap (·.taken) := by
  have hwoken := h.woken
  clear h
  induction readings with
  | nil => rfl
  | cons r readings ih =>
    have hrest := ih fun r' hr' => hwoken r' (List.mem_cons_of_mem r hr')
    rw [List.flatMap_cons, hrest]
    cases hr : r.woken with
    | true => simp [takings, hr, (hwoken r List.mem_cons_self hr).1]
    | false => simp [takings, hr]

/-- What a viewer receives of a shell. -/
structure Received (readings : List TerminalReading) (printed : Bytes) : Prop where
  /-- A read takes what is printed behind its start, up to the limit of a
  message, and something unless it starts at the end. -/
  taken : ∀ r ∈ readings, r.woken = false →
    r.out.bytes = (r.printed.drop r.start).take kWebTerminalMessageBytes ∧
      (r.start < r.printed.length → r.out.bytes ≠ [])
  /-- The bytes are the output at growing positions: nothing twice, nothing
  out of order. -/
  bytes : (readings.flatMap (·.out.bytes)).map some =
    (positions (takings readings)).map (printed[·]?)
  increasing : (positions (takings readings)).Pairwise (· < ·)
  /-- They begin at the replay point, and of what follows up to where the last
  read stopped only what had been dropped when a read went on is missing. -/
  complete : takings readings = [] ∨ ∃ t ts, takings readings = t :: ts ∧
    t.start = replayPoint t.stream ∧
      ∀ i, t.start ≤ i → (∃ u ∈ t :: ts, i < u.stop) → i ∈ positions (t :: ts) ∨
        ∃ u ∈ ts, i < dropped kWebTerminalScrollbackBytes u.stream ∧
          u.start = dropped kWebTerminalScrollbackBytes u.stream
  /-- The end is reported by the reads that stop at the end of a shell that
  ended, and a read that was woken brings nothing. -/
  ended : ∀ r ∈ readings, r.out.ended = true ↔
    r.woken = false ∧ r.finished = true ∧ r.start + r.out.bytes.length = r.printed.length
  woken : ∀ r ∈ readings, r.woken = true → r.out.bytes = []
  /-- Nothing is printed behind a reported end. -/
  final : ∀ r ∈ readings, r.out.ended = true → r.printed = printed

/-- What one read takes. -/
theorem Replayed.taken {readings : List TerminalReading} {printed : Bytes}
    (h : Replayed readings printed) {r : TerminalReading} (hr : r ∈ readings)
    (hwoken : r.woken = false) :
    r.out.bytes = (r.printed.drop r.start).take kWebTerminalMessageBytes ∧
      (r.start < r.printed.length → r.out.bytes ≠ []) := by
  have hmem : (⟨r.printed, r.start, r.out.bytes⟩ : Taking UInt8) ∈ takings readings :=
    List.mem_map.mpr ⟨r, List.mem_filter.mpr ⟨hr, by simp [hwoken]⟩, rfl⟩
  have hbytes : r.out.bytes = (r.printed.drop r.start).take kWebTerminalMessageBytes :=
    (h.sound _ hmem).1
  refine ⟨hbytes, fun hlt hnil => ?_⟩
  have hlength := congrArg List.length (hbytes.symm.trans hnil)
  have hpos : 0 < kWebTerminalMessageBytes := by decide
  rw [List.length_take, List.length_drop, List.length_nil] at hlength
  omega

/-- In every order of output, the end, other viewers and reads, a viewer reads
the output from its replay point on. -/
theorem viewer_replays (inFolder : Bool) (steps : List TerminalStep) :
    Received (TerminalRun.run inFolder steps).readings (TerminalRun.run inFolder steps).printed := by
  have h := (consistent_run inFolder steps).replayed
  refine ⟨fun r hr hwoken => h.taken hr hwoken, ?_, positions_pairwise h.chain, ?_, ?_,
    fun r hr hwoken => (h.woken r hr hwoken).1, h.final⟩
  · rw [h.bytes_eq]
    exact taken_positions h.sound
  · rcases hall : takings (TerminalRun.run inFolder steps).readings with - | ⟨t, ts⟩
    · exact .inl rfl
    · have hchain := h.chain
      have hfirst := h.first
      rw [hall] at hchain hfirst
      exact .inr ⟨t, ts, rfl, hfirst t rfl, fun i => mem_positions_or_dropped hchain⟩
  · intro r hr
    cases hwoken : r.woken with
    | true => simp [(h.woken r hr hwoken).2]
    | false => rw [h.ended r hr hwoken, and_iff_right rfl]

end UAgent
