/-
UAgent/App/SessionServer.lean

The session server (src/app/session_server.cc): what it keeps of the frames
it has sent, so that a client that joins now stands where one connected
throughout stands.

It keeps a snapshot (the last state frame it took as one, with the status
fields of every state frame since), and a replay: the events since, and the
latest state frame among them.  A replay over the queue limit is dropped and
a gap frame takes its place.

`View` is what a client makes of the frames it is sent.  Main result:
`join_agrees`.  A state frame replaces a client's view when it is a
checkpoint or the client has none yet; the server's rule is the same, so the
events before a first state frame are no part of the suffix.

Lines are the frames themselves here: their text counts only by its length.
Sockets, descriptors and clients that are cut off are left out.
-/
import UAgent.Base.JsonText
import UAgent.Base.Run
import UAgent.Core.Json
import UAgent.Transport.Frames
import Mathlib.Data.List.Perm.Basic

namespace UAgent

open Bytes

/-! ### Frames -/

def kFrameBytes : Nat := 1024 * 1024
def kQueueBytes : Nat := 4 * (1024 * 1024)

/-- `StampFrame`. -/
def stampFrame (frame : Json) (id generation : Bytes) : Json :=
  ((frame.set (lit "v") (.int kProtocol)).set (lit "session_id") (.str id)).set
    (lit "generation") (.str generation)

/-- `GapFrame`: what a client gets instead of frames it missed. -/
def gapFrame (id generation : Bytes) : Json :=
  stampFrame (.obj [(lit "kind", .str (lit "gap"))]) id generation

/-- `JsonValue(frame, "kind", "")`. -/
def frameKind (frame : Json) : Bytes := jsonValueStr frame (lit "kind") []

def isState (frame : Json) : Bool := frameKind frame = lit "state"

def isOutcome (frame : Json) : Bool := frameKind frame = lit "outcome"

def isGap (frame : Json) : Bool := frameKind frame = lit "gap"

/-- Neither a state nor an outcome. -/
def isEvent (frame : Json) : Bool := !isState frame && !isOutcome frame

/-- `JsonValue(frame, "checkpoint", false)`. -/
def isCheckpoint (frame : Json) : Bool := jsonValueBool frame (lit "checkpoint") false

/-- What the snapshot follows every state frame in. -/
def statusFields : List Bytes :=
  [lit "busy", lit "command_busy", lit "pending", lit "phase", lit "guidance"]

/-- The snapshot with the status fields a state frame holds. -/
def mergeStatus (snapshot frame : Json) : Json :=
  statusFields.foldl (fun s field =>
    match frame.get? field with
    | some v => s.set field v
    | none => s) snapshot

/-- The length of a frame's line. -/
def lineBytes [DoubleText] (frame : Json) : Nat := frame.dump.length + 1

/-! ### The server -/

/-- `Server::State`, without its sockets: the frames waiting to be sent, and
what is kept for a client that joins. -/
structure SessionServer where
  id : Bytes
  generation : Bytes
  pending : List Json
  pendingBytes : Nat
  snapshot : Option Json
  replay : List Json
  replayBytes : Nat
  replayGap : Bool
  replayState : Option Nat
  sequence : UInt64

namespace SessionServer

/-- `Server::Publish`. -/
def publish (s : SessionServer) (frame : Json) : SessionServer :=
  let gap := gapFrame s.id s.generation
  let frame :=
    if jsonEstimatedBytes frame > kFrameBytes then
      gap.set (lit "reason") (.str (lit "frame exceeds transport limit"))
    else frame
  let bytes := jsonEstimatedBytes frame
  let s :=
    if s.pendingBytes + bytes > kQueueBytes then { s with pending := [gap], pendingBytes := 256 }
    else s
  { s with pendingBytes := s.pendingBytes + bytes, pending := s.pending ++ [frame] }

variable [DoubleText]

/-- A frame joins the replay; a replay over the limit is dropped. -/
def keep (s : SessionServer) (frame : Json) : SessionServer :=
  let s :=
    match isState frame, s.replayState with
    | true, some i =>
      { s with
        replayBytes := s.replayBytes - ((s.replay[i]?).map lineBytes).getD 0
        replay := s.replay.eraseIdx i }
    | _, _ => s
  let s :=
    { s with
      replay := s.replay ++ [frame]
      replayBytes := s.replayBytes + lineBytes frame
      replayState := if isState frame then some s.replay.length else s.replayState }
  if s.replayBytes > kQueueBytes then
    { s with replay := [], replayBytes := 0, replayState := none, replayGap := true }
  else s

/-- The frame as it is sent: numbered. -/
def numbered (s : SessionServer) (frame : Json) : Json :=
  frame.set (lit "sequence") (.uint (s.sequence + 1))

/-- One round of the loop over the drained frames. -/
def ingest (s : SessionServer) (frame : Json) : SessionServer :=
  let frame := s.numbered frame
  let s := { s with sequence := s.sequence + 1 }
  let takes := isState frame && (s.snapshot.isNone || isCheckpoint frame)
  let s :=
    if isState frame && !isCheckpoint frame then
      -- A client that joins now reads its status from the snapshot, so it
      -- follows every state frame, not only checkpoints.
      { s with snapshot := s.snapshot.map (mergeStatus · frame) }
    else s
  if takes then
    { s with
      snapshot := some frame
      replayGap := false
      replay := []
      replayBytes := 0
      replayState := none }
  else if !isOutcome frame then s.keep frame
  else s

/-- What a client that joins is sent, after the greeting. -/
def joinLines (s : SessionServer) : List Json :=
  s.snapshot.toList ++ (if s.replayGap then [gapFrame s.id s.generation] else []) ++ s.replay

end SessionServer

/-! ### Clients -/

/-- What a client makes of the frames it is sent: the last state, with the
status it was brought up to, and the events since. -/
structure ClientView where
  snapshot : Option Json
  events : List Json

/-- A client takes one frame. -/
def ClientView.take (v : ClientView) (frame : Json) : ClientView :=
  if isState frame then
    if v.snapshot.isNone || isCheckpoint frame then ⟨some frame, []⟩
    else { v with snapshot := v.snapshot.map (mergeStatus · frame) }
  else if isOutcome frame then v
  else { v with events := v.events ++ [frame] }

/-- A client's view of everything it was sent. -/
def clientView (lines : List Json) : ClientView := lines.foldl ClientView.take ⟨none, []⟩

/-- Two clients stand at the same status and hold the same events. -/
structure ClientView.Agree (a b : ClientView) : Prop where
  known : a.snapshot.isSome = b.snapshot.isSome
  status : ∀ field ∈ statusFields,
    a.snapshot.bind (·.get? field) = b.snapshot.bind (·.get? field)
  events : a.events = b.events

/-! ### The system -/

/-- The server at work: the frames it has drained and not yet sent, everything
a client connected throughout was sent, and what one that joined on the way
was sent. -/
structure ServerWorld where
  server : SessionServer
  batch : List Json
  sent : List Json
  joined : Option (List Json)

/-- Frames are published at any time; the loop drains them, sends them one by
one, and accepts clients between drains. -/
inductive ServerEvent
  | publish (frame : Json)
  | drain
  | send
  | join

namespace ServerWorld

variable [DoubleText]

def step (w : ServerWorld) : ServerEvent → ServerWorld
  | .publish frame => { w with server := w.server.publish frame }
  | .drain =>
    { w with
      server := { w.server with pending := [], pendingBytes := 0 }
      batch := w.batch ++ w.server.pending }
  | .send =>
    match w.batch with
    | [] => w
    | frame :: rest =>
      let line := w.server.numbered frame
      { server := w.server.ingest frame
        batch := rest
        sent := w.sent ++ [line]
        joined := w.joined.map (· ++ [line]) }
  | .join => { w with joined := some w.server.joinLines }

end ServerWorld

/-- A server that has sent nothing. -/
def ServerWorld.initial (id generation : Bytes) : ServerWorld where
  server := ⟨id, generation, [], 0, none, [], 0, false, none, 0⟩
  batch := []
  sent := []
  joined := none

/-! ### Status fields -/

theorem isObject_of_isState {frame : Json} (h : isState frame = true) : frame.isObject := by
  rcases hk : frame.get? (lit "kind") with - | v
  · simp only [isState, frameKind, jsonValueStr, hk] at h
    exact absurd h (by decide)
  · exact Json.isObject_of_get? hk

/-- One field of a merged snapshot, for any list of fields. -/
theorem get?_mergeFields (frame : Json) (key : Bytes) (fields : List Bytes) {snapshot : Json}
    (h : snapshot.isObject) :
    (fields.foldl (fun s field => match frame.get? field with
      | some v => s.set field v
      | none => s) snapshot).isObject ∧
    (fields.foldl (fun s field => match frame.get? field with
      | some v => s.set field v
      | none => s) snapshot).get? key =
      if key ∈ fields then (frame.get? key).or (snapshot.get? key) else snapshot.get? key := by
  induction fields generalizing snapshot with
  | nil => simpa using h
  | cons field rest ih =>
    rw [List.foldl_cons]
    rcases hf : frame.get? field with - | v
    · obtain ⟨hobj, hget⟩ := ih h
      refine ⟨hobj, hget.trans ?_⟩
      by_cases hk : key = field
      · subst hk
        simp [hf]
      · simp [hk]
    · obtain ⟨hobj, hget⟩ := ih (Json.isObject_set h field v)
      refine ⟨hobj, hget.trans ?_⟩
      rw [Json.get?_set h]
      by_cases hk : key = field
      · subst hk
        simp [hf]
      · simp [hk]

theorem isObject_mergeStatus {snapshot : Json} (h : snapshot.isObject) (frame : Json) :
    (mergeStatus snapshot frame).isObject :=
  (get?_mergeFields frame [] statusFields h).1

/-- A status field of a merged snapshot: the frame's, when it holds it. -/
theorem get?_mergeStatus {snapshot : Json} (h : snapshot.isObject) (frame : Json) {field : Bytes}
    (hf : field ∈ statusFields) :
    (mergeStatus snapshot frame).get? field = (frame.get? field).or (snapshot.get? field) :=
  (get?_mergeFields frame field statusFields h).2.trans (if_pos hf)

/-- The kind is no status field. -/
theorem isState_mergeStatus {snapshot : Json} (h : isState snapshot = true) (frame : Json) :
    isState (mergeStatus snapshot frame) = true := by
  have hget := (get?_mergeFields frame (lit "kind") statusFields (isObject_of_isState h)).2
  rw [if_neg (by decide)] at hget
  rw [isState, frameKind, jsonValueStr] at h ⊢
  rw [mergeStatus, hget]
  exact h

/-! ### Views -/

theorem clientView_append (lines : List Json) (frame : Json) :
    clientView (lines ++ [frame]) = (clientView lines).take frame := by
  simp [clientView]

/-- A view's snapshot is a state frame. -/
theorem isState_clientView {lines : List Json} {snapshot : Json}
    (h : (clientView lines).snapshot = some snapshot) : isState snapshot = true := by
  induction lines using List.reverseRecOn generalizing snapshot with
  | nil => exact absurd h (by simp [clientView])
  | append_singleton lines frame ih =>
    rw [clientView_append, ClientView.take] at h
    split_ifs at h with hs hreset ho
    · exact Option.some.inj h ▸ hs
    · obtain ⟨old, hold, rfl⟩ := Option.map_eq_some_iff.mp h
      exact isState_mergeStatus (ih hold) frame
    · exact ih h
    · exact ih h

theorem isObject_clientView {lines : List Json} {snapshot : Json}
    (h : (clientView lines).snapshot = some snapshot) : snapshot.isObject :=
  isObject_of_isState (isState_clientView h)

/-- Clients that agree go on agreeing. -/
theorem ClientView.Agree.take {a b : ClientView} (h : a.Agree b)
    (ha : ∀ j, a.snapshot = some j → j.isObject) (hb : ∀ j, b.snapshot = some j → j.isObject)
    (frame : Json) : (a.take frame).Agree (b.take frame) := by
  have hnone : a.snapshot.isNone = b.snapshot.isNone := by
    have := h.known
    revert this
    cases a.snapshot <;> cases b.snapshot <;> simp
  unfold ClientView.take
  rw [hnone]
  split_ifs with hs hreset ho
  · exact ⟨rfl, fun _ _ => rfl, rfl⟩
  · refine ⟨by simpa using h.known, fun field hf => ?_, h.events⟩
    have hst := h.status field hf
    rcases hsa : a.snapshot with - | ja <;> rcases hsb : b.snapshot with - | jb
    · rfl
    · simp [hsa, hsb] at hnone
    · simp [hsa, hsb] at hnone
    · rw [hsa, hsb] at hst
      simp only [Option.bind_some, Option.map_some] at hst ⊢
      rw [get?_mergeStatus (ha ja hsa) frame hf, get?_mergeStatus (hb jb hsb) frame hf, hst]
  · exact h
  · exact ⟨h.known, h.status, congrArg (· ++ [frame]) h.events⟩

/-- Frames that replace nothing: the status is merged, the events follow. -/
theorem foldl_take {lines : List Json} {snapshot : Json} {events : List Json}
    (h : ∀ f ∈ lines, isState f = true → isCheckpoint f = false) :
    lines.foldl ClientView.take ⟨some snapshot, events⟩ =
      ⟨some ((lines.filter isState).foldl mergeStatus snapshot),
        events ++ lines.filter isEvent⟩ := by
  induction lines generalizing snapshot events with
  | nil => simp
  | cons f lines ih =>
    have hrest := fun g hg => h g (List.mem_cons_of_mem _ hg)
    rw [List.foldl_cons, ClientView.take]
    by_cases hs : isState f = true
    · have hc := h f List.mem_cons_self hs
      simp only [hs, if_true, hc, Option.isNone_some, Bool.or_false, Bool.false_eq_true, if_false,
        Option.map_some]
      rw [ih hrest]
      simp [hs, isEvent]
    · by_cases ho : isOutcome f = true
      · simp only [hs, ho, if_true, if_false, Bool.false_eq_true]
        rw [ih hrest]
        simp [hs, ho, isEvent]
      · simp only [hs, ho, if_false, Bool.false_eq_true]
        rw [ih hrest]
        simp [hs, ho, isEvent]

/-- Before any state there is no status. -/
theorem foldl_take_none {lines events : List Json} (h : ∀ f ∈ lines, isState f = false) :
    lines.foldl ClientView.take ⟨none, events⟩ = ⟨none, events ++ lines.filter isEvent⟩ := by
  induction lines generalizing events with
  | nil => simp
  | cons f lines ih =>
    have hs := h f List.mem_cons_self
    have hrest := fun g hg => h g (List.mem_cons_of_mem _ hg)
    rw [List.foldl_cons, ClientView.take]
    by_cases ho : isOutcome f = true
    · simp only [hs, ho, if_true, Bool.false_eq_true, if_false]
      rw [ih hrest]
      simp [ho, isEvent]
    · simp only [hs, ho, Bool.false_eq_true, if_false]
      rw [ih hrest]
      simp [hs, ho, isEvent]

/-- Merging what the snapshot already has changes no status field. -/
theorem get?_foldl_mergeStatus {frames : List Json} {snapshot : Json} (hobj : snapshot.isObject)
    {field : Bytes} (hf : field ∈ statusFields)
    (h : ∀ f ∈ frames, f.get? field = none ∨ f.get? field = snapshot.get? field) :
    (frames.foldl mergeStatus snapshot).get? field = snapshot.get? field := by
  induction frames generalizing snapshot with
  | nil => rfl
  | cons f frames ih =>
    have hone : (mergeStatus snapshot f).get? field = snapshot.get? field := by
      rw [get?_mergeStatus hobj f hf]
      rcases h f List.mem_cons_self with hn | hn
      · rw [hn, Option.none_or]
      · rw [hn, Option.or_self]
    rw [List.foldl_cons, ih (isObject_mergeStatus hobj f) fun g hg => ?_, hone]
    rw [hone]
    exact h g (List.mem_cons_of_mem _ hg)

/-! ### The replay -/

/-- The position held is that of the only state frame of the replay. -/
def StateIndexed (replay : List Json) (position : Option Nat) : Prop :=
  ∀ j, (∃ f, replay[j]? = some f ∧ isState f = true) ↔ position = some j

theorem stateIndexed_none {replay : List Json} :
    StateIndexed replay none ↔ ∀ f ∈ replay, isState f = false := by
  constructor
  · intro h f hf
    obtain ⟨j, hj⟩ := List.mem_iff_getElem?.mp hf
    by_contra hs
    exact absurd ((h j).mp ⟨f, hj, by simpa using hs⟩) (by simp)
  · intro h j
    refine iff_of_false ?_ (by simp)
    rintro ⟨f, hf, hs⟩
    rw [h f (List.mem_of_getElem? hf)] at hs
    exact absurd hs (by simp)

/-- The replay around its state frame. -/
theorem StateIndexed.split {replay : List Json} {i : Nat} (h : StateIndexed replay (some i)) :
    ∃ pre f post, replay = pre ++ f :: post ∧ pre.length = i ∧ isState f = true ∧
      ∀ g ∈ pre ++ post, isState g = false := by
  obtain ⟨f, hf, hs⟩ := (h i).mpr rfl
  obtain ⟨hi, rfl⟩ := List.getElem?_eq_some_iff.mp hf
  refine ⟨replay.take i, replay[i], replay.drop (i + 1), by simp, by simpa using hi.le, hs,
    fun g hg => ?_⟩
  have hother : ∀ j, j ≠ i → replay[j]? = some g → isState g = false := by
    intro j hj hget
    by_contra hsg
    exact hj (Option.some.inj ((h j).mp ⟨g, hget, by simpa using hsg⟩)).symm
  rcases List.mem_append.mp hg with hg | hg
  · obtain ⟨j, hj⟩ := List.mem_iff_getElem?.mp hg
    rw [List.getElem?_take] at hj
    split_ifs at hj with hlt
    exact hother j hlt.ne hj
  · obtain ⟨j, hj⟩ := List.mem_iff_getElem?.mp hg
    rw [List.getElem?_drop] at hj
    exact hother (i + 1 + j) (by omega) hj

/-- One state frame at the end of a replay that has none. -/
theorem stateIndexed_append {replay : List Json} (h : ∀ f ∈ replay, isState f = false)
    {frame : Json} (hs : isState frame = true) :
    StateIndexed (replay ++ [frame]) (some replay.length) := by
  intro j
  constructor
  · rintro ⟨f, hf, hsf⟩
    rw [List.getElem?_append] at hf
    split_ifs at hf with hlt
    · rw [h f (List.mem_of_getElem? hf)] at hsf
      exact absurd hsf (by simp)
    · have := (List.getElem?_eq_some_iff.mp hf).1
      rw [List.length_singleton] at this
      exact congrArg some (by omega)
  · intro hj
    obtain rfl := Option.some.inj hj
    exact ⟨frame, by simp, hs⟩

/-- An event at the end moves no state frame. -/
theorem StateIndexed.append {replay : List Json} {position : Option Nat}
    (h : StateIndexed replay position) {frame : Json} (hs : isState frame = false) :
    StateIndexed (replay ++ [frame]) position := by
  intro j
  rw [← h j]
  constructor
  · rintro ⟨f, hf, hsf⟩
    rw [List.getElem?_append] at hf
    split_ifs at hf with hlt
    · exact ⟨f, hf, hsf⟩
    · obtain rfl : frame = f := List.mem_singleton.mp (List.mem_of_getElem? hf) |>.symm
      rw [hs] at hsf
      exact absurd hsf (by simp)
  · rintro ⟨f, hf, hsf⟩
    exact ⟨f, by rw [List.getElem?_append_left (List.getElem?_eq_some_iff.mp hf).1, hf], hsf⟩

/-! ### What the server keeps -/

section Inv

variable [DoubleText]

/-- The server beside what a client connected throughout was sent. -/
structure ServerInv (s : SessionServer) (sent : List Json) : Prop where
  bytes : s.replayBytes = (s.replay.map lineBytes).sum
  indexed : StateIndexed s.replay s.replayState
  snapshot : s.snapshot = (clientView sent).snapshot
  events : s.replayGap = false → (clientView sent).events = s.replay.filter isEvent
  /-- A replayed state frame says what the snapshot already says. -/
  replayed : ∀ f ∈ s.replay, isState f = true → isCheckpoint f = false ∧
    ∃ j, s.snapshot = some j ∧
      ∀ field ∈ statusFields, f.get? field = none ∨ f.get? field = j.get? field

/-- A client that joins agrees with one connected throughout, or is told of a
gap. -/
theorem ServerInv.join {s : SessionServer} {sent : List Json} (h : ServerInv s sent) :
    (∃ f ∈ s.joinLines, isGap f = true) ∨ (clientView s.joinLines).Agree (clientView sent) := by
  unfold SessionServer.joinLines
  by_cases hgap : s.replayGap = true
  · refine .inl ⟨gapFrame s.id s.generation, by simp [hgap], ?_⟩
    rfl
  · rw [Bool.not_eq_true] at hgap
    refine .inr ?_
    have hevents := h.events hgap
    simp only [hgap, Bool.false_eq_true, if_false, List.append_nil]
    rcases hs : s.snapshot with - | snapshot
    · -- No state yet: no state frame is replayed either.
      have hnone : ∀ f ∈ s.replay, isState f = false := by
        intro f hf
        by_contra hst
        obtain ⟨-, j, hj, -⟩ := h.replayed f hf (by simpa using hst)
        rw [hs] at hj
        exact absurd hj (by simp)
      rw [Option.toList_none, List.nil_append, clientView, foldl_take_none hnone]
      have hsent := h.snapshot
      rw [hs] at hsent
      exact ⟨by rw [← hsent], fun _ _ => by rw [← hsent], by rw [hevents, List.nil_append]⟩
    · have hsent := h.snapshot
      rw [hs] at hsent
      have hstate := isState_clientView hsent.symm
      have hfirst : (⟨none, []⟩ : ClientView).take snapshot = ⟨some snapshot, []⟩ := by
        simp [ClientView.take, hstate]
      rw [Option.toList_some, List.singleton_append, clientView, List.foldl_cons, hfirst,
        foldl_take fun f hf hst => (h.replayed f hf hst).1, List.nil_append]
      refine ⟨by rw [← hsent]; rfl, fun field hf => ?_, hevents.symm⟩
      rw [← hsent, Option.bind_some, Option.bind_some]
      refine get?_foldl_mergeStatus (isObject_of_isState hstate) hf fun f hmem => ?_
      obtain ⟨hmem, hst⟩ := List.mem_filter.mp hmem
      obtain ⟨-, j, hj, hfields⟩ := h.replayed f hmem hst
      rw [hs] at hj
      obtain rfl := Option.some.inj hj
      exact hfields field hf

/-- A frame that joins the replay: its size is counted, an older state frame
makes room, and a replay over the limit becomes a gap. -/
theorem ServerInv.keep {s : SessionServer} {sent : List Json} {frame : Json}
    (hbytes : s.replayBytes = (s.replay.map lineBytes).sum)
    (hindexed : StateIndexed s.replay s.replayState)
    (hsnapshot : s.snapshot = ((clientView sent).take frame).snapshot)
    (hevents : s.replayGap = false →
      ((clientView sent).take frame).events = s.replay.filter isEvent ++ [frame].filter isEvent)
    (hreplayed : ∀ f ∈ s.replay, isState f = true → isState frame = false →
      isCheckpoint f = false ∧ ∃ j, s.snapshot = some j ∧
        ∀ field ∈ statusFields, f.get? field = none ∨ f.get? field = j.get? field)
    (hframe : isState frame = true → isCheckpoint frame = false ∧ ∃ j, s.snapshot = some j ∧
        ∀ field ∈ statusFields, frame.get? field = none ∨ frame.get? field = j.get? field) :
    ServerInv (s.keep frame) (sent ++ [frame]) := by
  rw [← clientView_append] at hsnapshot hevents
  -- What the replay is before the limit is looked at.
  obtain ⟨replay, bytes, position, hk, hb, hi, hev, hr⟩ : ∃ replay bytes position,
      s.keep frame = (if bytes > kQueueBytes then
        { s with replay := [], replayBytes := 0, replayState := none, replayGap := true }
      else { s with replay := replay, replayBytes := bytes, replayState := position }) ∧
      bytes = (replay.map lineBytes).sum ∧ StateIndexed replay position ∧
      replay.filter isEvent = s.replay.filter isEvent ++ [frame].filter isEvent ∧
      ∀ f ∈ replay, isState f = true → isCheckpoint f = false ∧ ∃ j, s.snapshot = some j ∧
        ∀ field ∈ statusFields, f.get? field = none ∨ f.get? field = j.get? field := by
    by_cases hs : isState frame = true
    · rcases hp : s.replayState with - | i
      · rw [hp] at hindexed
        have hnone := stateIndexed_none.mp hindexed
        refine ⟨s.replay ++ [frame], s.replayBytes + lineBytes frame, some s.replay.length,
          by simp [SessionServer.keep, hs, hp], by simp [hbytes], stateIndexed_append hnone hs,
          List.filter_append .., fun f hf hst => ?_⟩
        rcases List.mem_append.mp hf with hf | hf
        · rw [hnone f hf] at hst
          exact absurd hst (by simp)
        · exact List.mem_singleton.mp hf ▸ hframe hs
      · rw [hp] at hindexed
        obtain ⟨pre, old, post, hrep, hlen, hold, hnone⟩ := hindexed.split
        have herase : s.replay.eraseIdx i = pre ++ post := by
          rw [hrep, ← hlen, List.eraseIdx_append_of_length_le le_rfl]
          simp
        have hget : s.replay[i]? = some old := by
          rw [hrep, ← hlen]
          simp
        have hcount : s.replayBytes - lineBytes old + lineBytes frame =
            ((pre ++ post ++ [frame]).map lineBytes).sum := by
          rw [hbytes, hrep]
          simp only [List.map_append, List.map_cons, List.map_nil, List.sum_append,
            List.sum_cons, List.sum_nil]
          omega
        refine ⟨pre ++ post ++ [frame], s.replayBytes - lineBytes old + lineBytes frame,
          some (pre ++ post).length, by simp [SessionServer.keep, hs, hp, hget, herase], hcount,
          stateIndexed_append hnone hs, ?_, fun f hf hst => ?_⟩
        · rw [hrep]
          simp [isEvent, hold]
        · rcases List.mem_append.mp hf with hf | hf
          · rw [hnone f hf] at hst
            exact absurd hst (by simp)
          · exact List.mem_singleton.mp hf ▸ hframe hs
    · rw [Bool.not_eq_true] at hs
      refine ⟨s.replay ++ [frame], s.replayBytes + lineBytes frame, s.replayState,
        by simp [SessionServer.keep, hs], by simp [hbytes], hindexed.append hs,
        List.filter_append .., fun f hf hst => ?_⟩
      rcases List.mem_append.mp hf with hf | hf
      · exact hreplayed f hf hst hs
      · rw [List.mem_singleton.mp hf, hs] at hst
        exact absurd hst (by simp)
  rw [hk]
  split_ifs
  · exact ⟨rfl, stateIndexed_none.mpr (by simp), hsnapshot, by simp, by simp⟩
  · exact ⟨hb, hi, hsnapshot, fun hg => (hevents hg).trans hev.symm, hr⟩

/-- **Step lemma**: every frame sent keeps the invariant. -/
theorem ServerInv.ingest {s : SessionServer} {sent : List Json} (h : ServerInv s sent)
    (frame : Json) : ServerInv (s.ingest frame) (sent ++ [s.numbered frame]) := by
  unfold SessionServer.ingest
  generalize s.numbered frame = f
  by_cases hs : isState f = true
  · by_cases hreset : (s.snapshot.isNone || isCheckpoint f) = true
    · -- The frame is the new snapshot.
      have hview : clientView (sent ++ [f]) = ⟨some f, []⟩ := by
        rw [clientView_append, ClientView.take, if_pos hs, ← h.snapshot, if_pos hreset]
      simp only [hs, hreset, Bool.and_self, if_true]
      exact ⟨rfl, stateIndexed_none.mpr (by simp), by rw [hview], by rw [hview]; simp, by simp⟩
    · rw [Bool.not_eq_true, Bool.or_eq_false_iff] at hreset
      obtain ⟨j, hj⟩ : ∃ j, s.snapshot = some j := by
        cases hsn : s.snapshot with
        | none => rw [hsn] at hreset; exact absurd hreset.1 (by simp)
        | some j => exact ⟨j, rfl⟩
      have ho : isOutcome f = false := by
        simp only [isState, isOutcome, decide_eq_true_eq, decide_eq_false_iff_not] at hs ⊢
        rw [hs]
        decide
      have hobj := isObject_clientView (h.snapshot ▸ hj)
      have htake : (clientView sent).take f =
          { clientView sent with snapshot := some (mergeStatus j f) } := by
        rw [ClientView.take, if_pos hs, ← h.snapshot, if_neg (by simp [hreset])]
        simp [hj]
      simp only [hs, hreset.1, hreset.2, ho, Bool.not_false, Bool.and_self, Bool.or_self,
        Bool.and_false, Bool.false_eq_true, if_true, if_false]
      refine ServerInv.keep h.bytes h.indexed (by rw [htake]; simp [hj])
        (fun hg => by rw [htake]; simp [h.events hg, isEvent, hs]) (fun g hg hst hns => ?_)
        (fun _ => ⟨hreset.2, mergeStatus j f, by simp [hj], fun field hf => ?_⟩)
      · rw [hs] at hns
        exact absurd hns (by simp)
      · rw [get?_mergeStatus hobj f hf]
        rcases f.get? field with - | v
        · exact .inl rfl
        · exact .inr rfl
  · rw [Bool.not_eq_true] at hs
    by_cases ho : isOutcome f = true
    · have htake : (clientView sent).take f = clientView sent := by
        simp [ClientView.take, hs, ho]
      simp only [hs, ho, Bool.false_and, Bool.false_eq_true, if_false, Bool.not_true]
      exact ⟨h.bytes, h.indexed, by rw [clientView_append, htake]; exact h.snapshot,
        by rw [clientView_append, htake]; exact h.events, h.replayed⟩
    · rw [Bool.not_eq_true] at ho
      have htake : (clientView sent).take f =
          { clientView sent with events := (clientView sent).events ++ [f] } := by
        simp [ClientView.take, hs, ho]
      simp only [hs, ho, Bool.false_and, Bool.false_eq_true, if_false, Bool.not_false, if_true]
      refine ServerInv.keep h.bytes h.indexed (by rw [htake]; exact h.snapshot)
        (fun hg => by rw [htake]; simp [h.events hg, isEvent, hs, ho])
        (fun g hg hst _ => h.replayed g hg hst) (fun hst => ?_)
      rw [hs] at hst
      exact absurd hst (by simp)

end Inv

/-! ### Every client that joins -/

/-- The invariant of the system. -/
structure ServerWorld.Inv [DoubleText] (w : ServerWorld) : Prop where
  server : ServerInv w.server w.sent
  joined : ∀ lines, w.joined = some lines →
    (∃ f ∈ lines, isGap f = true) ∨ (clientView lines).Agree (clientView w.sent)

section World

variable [DoubleText]

theorem ServerWorld.inv_step (w : ServerWorld) (e : ServerEvent) (h : w.Inv) : (w.step e).Inv := by
  cases e with
  | publish frame =>
    rw [step, SessionServer.publish]
    refine ⟨?_, h.joined⟩
    split_ifs <;> exact ⟨h.server.bytes, h.server.indexed, h.server.snapshot, h.server.events,
      h.server.replayed⟩
  | drain =>
    exact ⟨⟨h.server.bytes, h.server.indexed, h.server.snapshot, h.server.events,
      h.server.replayed⟩, h.joined⟩
  | send =>
    rw [step]
    rcases hb : w.batch with - | ⟨frame, rest⟩
    · exact h
    · refine ⟨h.server.ingest frame, fun lines hl => ?_⟩
      obtain ⟨old, hold, rfl⟩ := Option.map_eq_some_iff.mp hl
      rcases h.joined old hold with ⟨f, hf, hgap⟩ | hagree
      · exact .inl ⟨f, List.mem_append_left _ hf, hgap⟩
      · refine .inr ?_
        rw [clientView_append, clientView_append]
        exact hagree.take (fun _ => isObject_clientView) (fun _ => isObject_clientView) _
  | join =>
    refine ⟨h.server, fun lines hl => ?_⟩
    obtain rfl := Option.some.inj hl
    exact h.server.join

/-- **A client that joins stands where one connected throughout stands**, or
is told of a gap; and the replay's size and the place of its only state frame
are as recorded. -/
theorem join_agrees {id generation : Bytes} {w : ServerWorld}
    (h : Run ServerWorld.step (fun _ _ => True) (ServerWorld.initial id generation) w) :
    (∀ lines, w.joined = some lines →
      (∃ f ∈ lines, isGap f = true) ∨ (clientView lines).Agree (clientView w.sent)) ∧
    w.server.replayBytes = (w.server.replay.map lineBytes).sum ∧
    StateIndexed w.server.replay w.server.replayState := by
  have hinv : w.Inv := by
    refine h.invariant ?_ fun w e hw _ => w.inv_step e hw
    exact ⟨⟨rfl, stateIndexed_none.mpr (by simp [ServerWorld.initial]), rfl,
      fun _ => rfl, by simp [ServerWorld.initial]⟩, by simp [ServerWorld.initial]⟩
  exact ⟨hinv.joined, hinv.server.bytes, hinv.server.indexed⟩

end World

/-- A state frame of a session that is busy or not. -/
def busyFrame (busy : Bool) (others : List (Bytes × Json)) : Json :=
  .ofFields ((lit "busy", .bool busy) :: (lit "kind", .str (lit "state")) :: others)

def eventFrame : Json := .ofFields [(lit "kind", .str (lit "event"))]

/-- A checkpoint and an event, a client that joins, and then a status and one
more event. -/
def joinsMidway : List ServerEvent :=
  [.publish (busyFrame true [(lit "checkpoint", .bool true)]), .publish eventFrame, .drain, .send,
    .send, .join, .publish (busyFrame false []), .publish eventFrame, .drain, .send, .send]

/-- The system after these. -/
def midway : ServerWorld :=
  joinsMidway.foldl (@ServerWorld.step Json.bitsText) (.initial [] [])

/-- The client that joined was sent four frames and no gap, and stands where
the other stands. -/
theorem join_agrees_joinsMidway :
    ∃ lines, midway.joined = some lines ∧ lines.length = 4 ∧ (∀ f ∈ lines, isGap f = false) ∧
      (clientView lines).Agree (clientView midway.sent) ∧
      midway.server.replayBytes = (midway.server.replay.map (@lineBytes Json.bitsText)).sum ∧
      StateIndexed midway.server.replay midway.server.replayState := by
  have hrun : Run (@ServerWorld.step Json.bitsText) (fun _ _ => True) (.initial [] []) midway :=
    .of_allOk (by decide)
  obtain ⟨hjoined, hbytes, hindexed⟩ := @join_agrees Json.bitsText _ _ _ hrun
  have hlines : midway.joined.map (fun lines => (lines.length, lines.any isGap)) =
      some (4, false) := by decide +kernel
  obtain ⟨lines, hlines, hread⟩ := Option.map_eq_some_iff.mp hlines
  obtain ⟨hlength, hgap⟩ := Prod.mk.inj hread
  rw [List.any_eq_false] at hgap
  refine ⟨lines, hlines, hlength, fun f hf => Bool.eq_false_of_not_eq_true (hgap f hf),
    (hjoined lines hlines).resolve_left ?_, hbytes, hindexed⟩
  rintro ⟨f, hf, hisgap⟩
  exact hgap f hf hisgap

/-- An event, a first state frame that is no checkpoint, and a client that
joins. -/
def firstState : List ServerEvent :=
  [.publish (.obj [(lit "kind", .str (lit "event"))]),
    .publish (.obj [(lit "busy", .bool true), (lit "kind", .str (lit "state"))]),
    .drain, .send, .send, .join]

/-- The events of a client since the last frame marked as a checkpoint. -/
def eventsSinceCheckpoint (lines : List Json) : List Json :=
  lines.foldl (fun events f =>
    if isState f && isCheckpoint f then [] else if isEvent f then events ++ [f] else events) []

/-- An event before the first state frame reaches no client that joins after
it, though no frame was marked as a checkpoint. -/
theorem join_without_checkpoint :
    ∃ w lines, Run (@ServerWorld.step Json.bitsText) (fun _ _ => True) (.initial [] []) w ∧
      w.joined = some lines ∧ (∀ f ∈ lines, isGap f = false) ∧
      eventsSinceCheckpoint lines ≠ eventsSinceCheckpoint w.sent := by
  let _ := Json.bitsText
  exact ⟨firstState.foldl ServerWorld.step (.initial [] []), _, .of_allOk (by decide), rfl,
    by decide, by decide⟩

end UAgent
