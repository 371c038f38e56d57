/-
UAgent/App/ReplayLog.lean

The host's event log (src/app/replay_log.cc): every event becomes a numbered
frame, the oldest frames are dropped past a byte limit or a count, and a
reader that says which frame it saw last is sent the ones after it, or is
told to start over.

`frames` is the log that drops nothing.  The log is always an end of it
(`publishAll_replay`), so the first unread frame is found by counting from
the front.  A reader whose next frame was dropped is told to start over by
comparing with the front; a log that dropped everything has no front.  Main
result: `read_sound_iff`.

Frames are counted, not numbered modulo 2^64.
-/
import UAgent.App.SessionServer

namespace UAgent

open Bytes

/-! ### Publishing -/

/-- `HostReplay`. -/
structure HostReplay where
  sequence : Nat
  frame : Bytes
deriving DecidableEq

/-- `HostNotice`, without the title that the host fills in. -/
structure HostNotice where
  attentionId : Bytes := []
  session : Bytes := []
  reason : Bytes := []
  wake : Bool := false
deriving DecidableEq

/-- The arguments of `Publish`. -/
structure PublishCall where
  epoch : Bytes
  session : Bytes
  generation : Bytes
  value : Json
  runOwned : Bool

structure ReplayLog where
  byteLimit : Nat
  eventLimit : Nat
  replayBytes : Nat := 0
  sequence : Nat := 0
  replay : List HostReplay := []
  notices : List (Bytes × HostNotice) := []

/-- `RoutedToParent`. -/
def routedToParent (pending : Json) : Bool := jsonValueStr pending (lit "route") [] = lit "parent"

namespace PublishCall

def type (c : PublishCall) : Bytes := jsonValueStr c.value (lit "type") []

def kind (c : PublishCall) : Bytes := jsonValueStr c.value (lit "kind") []

/-- Whether the event asks for a person: a decision routed to an agent's
parent does so only once the parent yields it. -/
def raisesNotice (c : PublishCall) : Bool :=
  let routed := routedToParent (jsonValue c.value (lit "data") (.obj []))
  c.type = lit "turn.completed" ||
    ((c.type = lit "approval.requested" || c.type = lit "ask.requested") && !routed) ||
    c.type = lit "approval.escalated" || c.type = lit "error" || c.kind = lit "error"

/-- What the notice says it was raised by. -/
def reason (c : PublishCall) : Bytes :=
  if c.type = lit "turn.completed" then lit "finished"
  else if c.type = lit "ask.requested" then lit "question"
  else if c.type = lit "error" ∨ c.kind = lit "error" then lit "error"
  else lit "approval"

/-- The events a turn sends by the hundred. -/
def streamed (c : PublishCall) : Bool :=
  [lit "response.answer.delta", lit "response.reasoning.delta", lit "usage.updated",
    lit "response.tool_arguments", lit "response.hosted_tool", lit "http.exchange"].contains c.type

/-- Whether the event wakes the scheduler. -/
def wakes (c : PublishCall) : Bool :=
  [lit "scheduled.changed", lit "management.changed", lit "spaces.changed", lit "metadata",
    lit "activated", lit "deactivated"].contains c.kind || (c.runOwned && !c.streamed)

/-- `epoch:sequence`, the id of a frame and of the notice it raises. -/
def frameId (c : PublishCall) (sequence : Nat) : Bytes :=
  c.epoch ++ ch ':' :: Json.decimal sequence

/-- The value as it is sent. -/
def stamped (c : PublishCall) (sequence : Nat) : Json :=
  let value :=
    if c.raisesNotice then c.value.set (lit "attention_id") (.str (c.frameId sequence))
    else c.value
  stampFrame ((value.set (lit "epoch") (.str c.epoch)).set (lit "sequence")
    (.uint (UInt64.ofNat sequence))) c.session c.generation

/-- The frame in its event-stream envelope. -/
def toReplay [DoubleText] (c : PublishCall) (sequence : Nat) : HostReplay where
  sequence := sequence
  frame := lit "id: " ++ c.frameId sequence ++ lit "\nevent: update\ndata: " ++
    (c.stamped sequence).dump ++ lit "\n\n"

/-- The notices with what the event adds to those of its session. -/
def addNotice (c : PublishCall) (sequence : Nat) (notices : List (Bytes × HostNotice)) :
    List (Bytes × HostNotice) :=
  let notices := if c.kind = lit "deleted" then Assoc.erase c.session notices else notices
  if c.raisesNotice || c.wakes then
    let pending := (Assoc.lookup c.session notices).getD {}
    let pending := { pending with session := c.session, wake := pending.wake || c.wakes }
    Assoc.insert c.session
      (if c.raisesNotice then
        { pending with attentionId := c.frameId sequence, reason := c.reason }
      else pending) notices
  else notices

end PublishCall

/-- The bytes a list of frames takes. -/
def frameBytes (events : List HostReplay) : Nat := (events.map fun e => e.frame.length).sum

namespace ReplayLog

/-- The eviction loop: the oldest frames go while a limit is passed.  An
empty log passes none. -/
def evict (byteLimit eventLimit : Nat) (bytes : Nat) : List HostReplay → Nat × List HostReplay
  | [] => (bytes, [])
  | event :: replay =>
    if bytes > byteLimit ∨ (event :: replay).length > eventLimit then
      evict byteLimit eventLimit (bytes - event.frame.length) replay
    else (bytes, event :: replay)

/-- `ReplayLog::Publish`. -/
def publish [DoubleText] (log : ReplayLog) (c : PublishCall) : ReplayLog :=
  let event := c.toReplay (log.sequence + 1)
  let kept := evict log.byteLimit log.eventLimit (log.replayBytes + event.frame.length)
    (log.replay ++ [event])
  { log with
    sequence := log.sequence + 1
    replayBytes := kept.1
    replay := kept.2
    notices := c.addNotice (log.sequence + 1) log.notices }

/-- `ReplayLog::TakeNotices`. -/
def takeNotices (log : ReplayLog) : List HostNotice × ReplayLog :=
  (log.notices.map Prod.snd, { log with notices := [] })

/-! ### Reading -/

/-- `ReplayBatch`. -/
structure Batch where
  cursor : Nat
  reset : Bool
  events : List HostReplay

/-- The loop of `Read`: frames up to the watermark, `bytes` of the budget
being spent. -/
def collect (watermark byteBudget : Nat) (bytes : Nat) : List HostReplay → List HostReplay
  | [] => []
  | event :: replay =>
    if event.sequence > watermark ∨ bytes ≥ byteBudget then []
    else event :: collect watermark byteBudget (bytes + event.frame.length) replay

/-- `ReplayLog::Read`. -/
def read (log : ReplayLog) (next : Nat) (valid : Bool) (watermark byteBudget : Nat) : Batch :=
  let behind :=
    match log.replay with
    | [] => false
    | front :: _ => decide (next + 1 < front.sequence)
  if !valid || decide (next > log.sequence) || behind then ⟨log.sequence, true, []⟩
  else
    -- Sequences are consecutive, so the first unread frame is found by index.
    let index :=
      match log.replay with
      | [] => 0
      | front :: _ => next + 1 - front.sequence
    ⟨log.sequence, false, collect watermark byteBudget 0 (log.replay.drop index)⟩

/-! ### The log that drops nothing -/

section History

variable [DoubleText]

/-- A log with these limits after the given calls. -/
def publishAll (byteLimit eventLimit : Nat) (calls : List PublishCall) : ReplayLog :=
  calls.foldl publish { byteLimit, eventLimit }

/-- All frames ever published, in order. -/
def frames (calls : List PublishCall) : List HostReplay :=
  (calls.zipIdx 1).map fun c => c.1.toReplay c.2

@[simp] theorem length_frames (calls : List PublishCall) : (frames calls).length = calls.length := by
  simp [frames]

theorem frames_append_singleton (calls : List PublishCall) (c : PublishCall) :
    frames (calls ++ [c]) = frames calls ++ [c.toReplay (calls.length + 1)] := by
  simp [frames, List.zipIdx_append, Nat.add_comm]

/-- Frames are numbered from one, without a hole. -/
theorem sequence_frames {calls : List PublishCall} {i : Nat} {event : HostReplay}
    (h : (frames calls)[i]? = some event) : event.sequence = i + 1 := by
  simp only [frames, List.getElem?_map, List.getElem?_zipIdx, Option.map_eq_some_iff] at h
  obtain ⟨-, ⟨c, -, rfl⟩, rfl⟩ := h
  exact Nat.add_comm 1 i

theorem publishAll_append_singleton (byteLimit eventLimit : Nat) (calls : List PublishCall)
    (c : PublishCall) : publishAll byteLimit eventLimit (calls ++ [c]) =
      (publishAll byteLimit eventLimit calls).publish c := by
  simp [publishAll]

/-! ### What eviction keeps -/

omit [DoubleText] in
theorem frameBytes_cons (event : HostReplay) (replay : List HostReplay) :
    frameBytes (event :: replay) = event.frame.length + frameBytes replay := rfl

omit [DoubleText] in
theorem frameBytes_append (a b : List HostReplay) :
    frameBytes (a ++ b) = frameBytes a + frameBytes b := by
  simp [frameBytes]

omit [DoubleText] in
/-- Eviction takes frames off the front and keeps the count of bytes. -/
theorem evict_spec (byteLimit eventLimit : Nat) (replay : List HostReplay) :
    ∃ kept, evict byteLimit eventLimit (frameBytes replay) replay = (frameBytes kept, kept) ∧
      kept <:+ replay := by
  induction replay with
  | nil => exact ⟨[], rfl, List.nil_suffix⟩
  | cons event replay ih =>
    rw [evict]
    split_ifs
    · obtain ⟨kept, hkept, hsuffix⟩ := ih
      refine ⟨kept, ?_, hsuffix.trans (List.suffix_cons event replay)⟩
      rw [frameBytes_cons, Nat.add_sub_cancel_left, hkept]
    · exact ⟨event :: replay, rfl, List.suffix_rfl⟩

/-- The newest frame stays within both limits by itself. -/
def Fits (byteLimit eventLimit : Nat) (event : HostReplay) : Prop :=
  event.frame.length ≤ byteLimit ∧ eventLimit ≠ 0

instance (byteLimit eventLimit : Nat) (event : HostReplay) :
    Decidable (Fits byteLimit eventLimit event) := by
  unfold Fits; infer_instance

omit [DoubleText] in
/-- Eviction empties the log exactly when the newest frame does not fit. -/
theorem evict_eq_nil_iff (byteLimit eventLimit : Nat) (replay : List HostReplay)
    (event : HostReplay) :
    (evict byteLimit eventLimit (frameBytes (replay ++ [event])) (replay ++ [event])).2 = [] ↔
      ¬Fits byteLimit eventLimit event := by
  induction replay with
  | nil =>
    simp only [List.nil_append, evict, frameBytes, Fits]
    split_ifs with h
    · simp at h ⊢
      omega
    · simp at h ⊢
      omega
  | cons front replay ih =>
    rw [List.cons_append, evict, frameBytes_cons, Nat.add_sub_cancel_left]
    split_ifs with h
    · exact ih
    · refine iff_of_false (by simp) (not_not_intro ?_)
      rw [frameBytes_append, frameBytes_cons] at h
      simp only [List.length_cons, List.length_append] at h
      exact ⟨by omega, by omega⟩

/-- The log after its calls: an end of all the frames, counted. -/
structure Retains (log : ReplayLog) (history : List HostReplay) : Prop where
  sequence : log.sequence = history.length
  bytes : log.replayBytes = frameBytes log.replay
  suffix : log.replay <:+ history

theorem publish_retains {log : ReplayLog} {history : List HostReplay} (h : Retains log history)
    (c : PublishCall) :
    Retains (log.publish c) (history ++ [c.toReplay (history.length + 1)]) := by
  have hbytes : log.replayBytes + (c.toReplay (log.sequence + 1)).frame.length =
      frameBytes (log.replay ++ [c.toReplay (log.sequence + 1)]) := by
    rw [frameBytes_append, h.bytes, frameBytes_cons]
    rfl
  obtain ⟨kept, hkept, hsuffix⟩ := evict_spec log.byteLimit log.eventLimit
    (log.replay ++ [c.toReplay (log.sequence + 1)])
  refine ⟨?_, ?_, ?_⟩
  · simp [publish, h.sequence]
  · simp only [publish, hbytes, hkept]
  · simp only [publish, hbytes, hkept]
    rw [← h.sequence]
    exact hsuffix.trans (List.suffix_append_self_iff.mpr h.suffix)

/-- Publishing leaves the limits. -/
theorem publishAll_limits (byteLimit eventLimit : Nat) (calls : List PublishCall) :
    (publishAll byteLimit eventLimit calls).byteLimit = byteLimit ∧
      (publishAll byteLimit eventLimit calls).eventLimit = eventLimit := by
  induction calls using List.reverseRecOn with
  | nil => exact ⟨rfl, rfl⟩
  | append_singleton calls c ih => rwa [publishAll_append_singleton]

/-- **The log is an end of all the frames.** -/
theorem publishAll_retains (byteLimit eventLimit : Nat) (calls : List PublishCall) :
    Retains (publishAll byteLimit eventLimit calls) (frames calls) := by
  induction calls using List.reverseRecOn with
  | nil => exact ⟨rfl, rfl, List.nil_suffix⟩
  | append_singleton calls c ih =>
    rw [publishAll_append_singleton, frames_append_singleton, ← length_frames]
    exact publish_retains ih c

/-- The log of some calls is empty exactly when the newest frame does not
fit. -/
theorem publishAll_replay_eq_nil_iff (byteLimit eventLimit : Nat) (calls : List PublishCall)
    (c : PublishCall) :
    (publishAll byteLimit eventLimit (calls ++ [c])).replay = [] ↔
      ¬Fits byteLimit eventLimit (c.toReplay (calls.length + 1)) := by
  have h := publishAll_retains byteLimit eventLimit calls
  have hl := publishAll_limits byteLimit eventLimit calls
  rw [publishAll_append_singleton, ← length_frames, ← h.sequence,
    ← evict_eq_nil_iff byteLimit eventLimit (publishAll byteLimit eventLimit calls).replay]
  simp only [publish, hl, h.bytes, frameBytes_append]
  rfl

/-! ### What a reader is sent -/

/-- A batch out of the frames that are due: the first of them in order, up to
the watermark or until the budget is first reached. -/
structure Delivers (due : List HostReplay) (watermark byteBudget : Nat)
    (events : List HostReplay) : Prop where
  isPrefix : events <+: due
  upTo : ∀ event ∈ events, event.sequence ≤ watermark
  within : ∀ part, part <+: events → part ≠ events → frameBytes part < byteBudget
  stops : events = due ∨ byteBudget ≤ frameBytes events ∨
    ∃ event, events ++ [event] <+: due ∧ watermark < event.sequence

omit [DoubleText] in
theorem Delivers.cons {due events : List HostReplay} {watermark byteBudget : Nat}
    {event : HostReplay}
    (h : Delivers due watermark (byteBudget - event.frame.length) events)
    (hseq : event.sequence ≤ watermark) (hbudget : 0 < byteBudget) :
    Delivers (event :: due) watermark byteBudget (event :: events) where
  isPrefix := (List.prefix_cons_inj event).mpr h.isPrefix
  upTo := List.forall_mem_cons.mpr ⟨hseq, h.upTo⟩
  within part hpart hne := by
    rcases List.prefix_cons_iff.mp hpart with rfl | ⟨part, rfl, hpart⟩
    · exact hbudget
    · have hlt := h.within part ((List.prefix_cons_inj event).mp hpart) fun he => hne (he ▸ rfl)
      rw [frameBytes_cons]
      omega
  stops := by
    rcases h.stops with rfl | hfull | ⟨next, hnext, hlt⟩
    · exact .inl rfl
    · refine .inr (.inl ?_)
      rw [frameBytes_cons]
      omega
    · exact .inr (.inr ⟨next, (List.prefix_cons_inj event).mpr hnext, hlt⟩)

omit [DoubleText] in
/-- The loop of `Read` delivers from the frames it is given. -/
theorem collect_delivers (watermark byteBudget bytes : Nat) (due : List HostReplay) :
    Delivers due watermark (byteBudget - bytes) (collect watermark byteBudget bytes due) := by
  induction due generalizing bytes with
  | nil =>
    refine ⟨List.nil_prefix, by simp [collect], fun part hpart hne => ?_, .inl rfl⟩
    exact absurd (List.prefix_nil.mp hpart) hne
  | cons event due ih =>
    rw [collect]
    split_ifs with h
    · refine ⟨List.nil_prefix, by simp, fun part hpart hne => ?_, .inr ?_⟩
      · exact absurd (List.prefix_nil.mp hpart) hne
      · rcases h with h | h
        · exact .inr ⟨event, by simp, h⟩
        · refine .inl ?_
          rw [Nat.sub_eq_zero_of_le h]
          exact Nat.zero_le _
    · rw [not_or, not_lt, not_le] at h
      refine Delivers.cons ?_ h.1 (Nat.sub_pos_of_lt h.2)
      rw [Nat.sub_sub]
      exact ih (bytes + event.frame.length)

/-- What a read is due: a reset, or the frames after `next`; and never
nothing while there is something to send. -/
def ReadSound (history : List HostReplay) (next watermark byteBudget : Nat) (batch : Batch) :
    Prop :=
  batch.reset = true ∨
    (Delivers (history.drop next) watermark byteBudget batch.events ∧
      (next < history.length → next < watermark → 0 < byteBudget → batch.events ≠ []))

omit [DoubleText] in
/-- A batch of the frames due is not empty while the first may be sent. -/
theorem Delivers.ne_nil {due events : List HostReplay} {watermark byteBudget : Nat}
    (h : Delivers due watermark byteBudget events) (hbudget : 0 < byteBudget)
    {event : HostReplay} (hfirst : due.head? = some event) (hseq : event.sequence ≤ watermark) :
    events ≠ [] := by
  rintro rfl
  obtain ⟨due, rfl⟩ := List.head?_eq_some_iff.mp hfirst
  rcases h.stops with hall | hfull | ⟨next, hnext, hlt⟩
  · exact List.cons_ne_nil _ _ hall.symm
  · exact absurd hfull (Nat.not_le.mpr hbudget)
  · obtain ⟨rfl, -⟩ := List.cons_prefix_cons.mp hnext
    exact absurd hseq (Nat.not_le.mpr hlt)

/-- The first frame a reader has not seen. -/
theorem head?_drop_frames {calls : List PublishCall} {next : Nat} (h : next < calls.length) :
    ∃ event, ((frames calls).drop next).head? = some event ∧ event.sequence = next + 1 := by
  rw [← length_frames] at h
  refine ⟨(frames calls)[next], ?_, sequence_frames (List.getElem?_eq_getElem h)⟩
  rw [List.head?_drop, List.getElem?_eq_getElem h]

/-- A log that holds a frame is read from the frame after `next`. -/
theorem read_sound_of_ne_nil {byteLimit eventLimit : Nat} {calls : List PublishCall} {next : Nat}
    (watermark byteBudget : Nat) (hnext : next ≤ calls.length)
    (hne : (publishAll byteLimit eventLimit calls).replay ≠ []) :
    ReadSound (frames calls) next watermark byteBudget
      ((publishAll byteLimit eventLimit calls).read next true watermark byteBudget) := by
  have hr := publishAll_retains byteLimit eventLimit calls
  generalize publishAll byteLimit eventLimit calls = log at hr hne
  obtain ⟨older, holder⟩ := hr.suffix
  obtain ⟨front, replay, hreplay⟩ := List.exists_cons_of_ne_nil hne
  have hfront : front.sequence = older.length + 1 := by
    have hget : (frames calls)[older.length]? = some front := by simp [← holder, hreplay]
    exact sequence_frames hget
  have hseq : ¬next > log.sequence := by
    rw [hr.sequence, length_frames]
    omega
  simp only [ReadSound, read, hreplay, hfront, hseq]
  by_cases hbehind : next + 1 < older.length + 1
  · simp [hbehind]
  · right
    simp only [hbehind, Bool.not_true, decide_false, Bool.or_self, Bool.false_eq_true, if_false]
    have hdrop : (front :: replay).drop (next + 1 - (older.length + 1)) =
        (frames calls).drop next := by
      have hold : older.drop next = [] := List.drop_eq_nil_of_le (by omega)
      rw [← hreplay, ← holder, List.drop_append, hold, List.nil_append]
      congr 1
      omega
    have hdelivers := collect_delivers watermark byteBudget 0 ((frames calls).drop next)
    rw [hdrop]
    refine ⟨hdelivers, fun hlt hwater hbudget => ?_⟩
    obtain ⟨event, hfirst, hevent⟩ := head?_drop_frames (length_frames calls ▸ hlt)
    exact hdelivers.ne_nil hbudget hfirst (hevent ▸ hwater)

/-- A log that dropped every frame sends nothing. -/
theorem read_sound_iff_of_eq_nil {byteLimit eventLimit : Nat} {calls : List PublishCall}
    {next : Nat} (watermark byteBudget : Nat) (hnext : next ≤ calls.length)
    (hnil : (publishAll byteLimit eventLimit calls).replay = []) :
    ReadSound (frames calls) next watermark byteBudget
        ((publishAll byteLimit eventLimit calls).read next true watermark byteBudget) ↔
      ¬(next < calls.length ∧ next < watermark ∧ 0 < byteBudget) := by
  have hr := publishAll_retains byteLimit eventLimit calls
  generalize publishAll byteLimit eventLimit calls = log at hr hnil
  have hseq : ¬next > log.sequence := by
    rw [hr.sequence, length_frames]
    omega
  simp only [ReadSound, read, hnil, hseq, length_frames]
  simp only [Bool.not_true, decide_false, Bool.or_self, Bool.false_eq_true, if_false, false_or,
    List.drop_nil, collect, ne_eq, not_true_eq_false]
  constructor
  · rintro ⟨-, hsend⟩ ⟨hlt, hwater, hbudget⟩
    exact hsend hlt hwater hbudget
  · intro h
    refine ⟨⟨List.nil_prefix, by simp, fun part hpart hne => ?_, ?_⟩, fun hlt hwater hbudget =>
      h ⟨hlt, hwater, hbudget⟩⟩
    · exact absurd (List.prefix_nil.mp hpart) hne
    · by_cases hlt : next < calls.length
      · obtain ⟨event, hfirst, hevent⟩ := head?_drop_frames hlt
        obtain ⟨due, hdue⟩ := List.head?_eq_some_iff.mp hfirst
        by_cases hwater : next < watermark
        · refine .inr (.inl ?_)
          have : ¬0 < byteBudget := fun hbudget => h ⟨hlt, hwater, hbudget⟩
          omega
        · refine .inr (.inr ⟨event, ?_, by omega⟩)
          simp [hdue]
      · refine .inl (List.drop_eq_nil_of_le ?_).symm
        rw [length_frames]
        omega

/-- Whether the newest of the frames fits the limits by itself; of no frames
there is none. -/
def NewestFits (byteLimit eventLimit : Nat) (calls : List PublishCall) : Prop :=
  ∀ event, (frames calls).getLast? = some event → Fits byteLimit eventLimit event

/-- **A read is sound** exactly when the newest frame fits the limits by
itself, or there is nothing to send. -/
theorem read_sound_iff (byteLimit eventLimit : Nat) (calls : List PublishCall)
    (next watermark byteBudget : Nat)
    (hnext : next ≤ (publishAll byteLimit eventLimit calls).sequence) :
    ReadSound (frames calls) next watermark byteBudget
        ((publishAll byteLimit eventLimit calls).read next true watermark byteBudget) ↔
      (next < calls.length → next < watermark → 0 < byteBudget →
        NewestFits byteLimit eventLimit calls) := by
  rw [(publishAll_retains byteLimit eventLimit calls).sequence, length_frames] at hnext
  rcases List.eq_nil_or_concat calls with rfl | ⟨older, c, rfl⟩
  · refine iff_of_true ?_ fun hlt => absurd hlt (Nat.not_lt_zero _)
    rw [read_sound_iff_of_eq_nil watermark byteBudget hnext rfl]
    exact fun h => absurd h.1 (Nat.not_lt_zero _)
  · have hfits : NewestFits byteLimit eventLimit (older ++ [c]) ↔
        Fits byteLimit eventLimit (c.toReplay (older.length + 1)) := by
      simp [NewestFits, frames_append_singleton]
    rw [List.concat_eq_append] at hnext ⊢
    rw [hfits]
    by_cases hnil : (publishAll byteLimit eventLimit (older ++ [c])).replay = []
    · rw [read_sound_iff_of_eq_nil watermark byteBudget hnext hnil]
      have := (publishAll_replay_eq_nil_iff byteLimit eventLimit older c).mp hnil
      tauto
    · refine iff_of_true (read_sound_of_ne_nil watermark byteBudget hnext hnil) fun _ _ _ => ?_
      exact not_not.mp (mt (publishAll_replay_eq_nil_iff byteLimit eventLimit older c).mpr hnil)

end History

/-- A host event without anything to say. -/
def quietCall : PublishCall where
  epoch := lit "e"
  session := lit "s"
  generation := lit "g"
  value := .obj []
  runOwned := false

/-- The first of two frames is delivered, the budget being one byte. -/
theorem read_sound_two :
    let _ := Json.bitsText
    ReadSound (frames [quietCall, quietCall]) 0 2 1
        ((publishAll 100 2 [quietCall, quietCall]).read 0 true 2 1) ↔
      (0 < 2 → 0 < 2 → 0 < 1 → NewestFits 100 2 [quietCall, quietCall]) := by
  intro _
  exact read_sound_iff 100 2 [quietCall, quietCall] 0 2 1 (Nat.zero_le _)

/-- One frame above the byte limit empties the log, and a reader waiting for
it is sent nothing and is not told to start over. -/
theorem read_loses_frame :
    let _ := Json.bitsText
    ¬ReadSound (frames [quietCall]) 0 1 1 ((publishAll 1 1 [quietCall]).read 0 true 1 1) := by
  intro _ h
  have hreset : ((publishAll 1 1 [quietCall]).read 0 true 1 1).reset = false := by decide
  have hevents : ((publishAll 1 1 [quietCall]).read 0 true 1 1).events = [] := by decide
  rcases h with h | ⟨-, h⟩
  · exact absurd (hreset ▸ h) Bool.false_ne_true
  · exact h (by decide) (by decide) (by decide) hevents

end ReplayLog

end UAgent
