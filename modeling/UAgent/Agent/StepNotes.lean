/-
UAgent/Agent/StepNotes.lean

What becomes of the notes of a turn (src/agent/turn.cc): a note goes out with
the next request and is erased once it is answered.

No note goes out twice, and no request leaves its note behind or takes another
message with it; this holds of every run.  But the note is taken out of the
step before the request is made, so a request that fails and is tried again,
or is interrupted and taken up with what was queued, goes on without it; and
what a conversation is told beside its messages, a to-do list, goes out behind
the note.  `notesKept_of_fair` says that nothing else goes wrong.
-/
import UAgent.Agent.DuplicateResults
import UAgent.Agent.TurnEnds

namespace UAgent

open Bytes TurnState

/-! ### Texts -/

theorem noteText_ne_nil {notes : List StepNote} (h : notes ≠ []) : noteText notes ≠ [] := by
  cases notes with
  | nil => exact absurd rfl h
  | cons note notes => exact List.append_ne_nil_of_left_ne_nil note.ne_nil _

/-- A note is part of the text that goes out. -/
theorem infix_noteText {note : StepNote} {notes : List StepNote} (h : note ∈ notes) :
    note.text <:+: noteText notes := by
  cases notes with
  | nil => exact absurd h List.not_mem_nil
  | cons first rest =>
    rcases List.mem_cons.mp h with rfl | hrest
    · exact (List.prefix_append _ _).isInfix
    · obtain ⟨before, after, heq⟩ := List.append_of_mem hrest
      refine ⟨first.text ++ (before.flatMap fun y => lit "\n\n" ++ y.text) ++ lit "\n\n",
        after.flatMap fun y => lit "\n\n" ++ y.text, ?_⟩
      rw [heq, noteText, List.map_cons, joinWith, List.map_append, List.map_cons,
        List.flatMap_append, List.flatMap_cons, List.flatMap_map, List.flatMap_map]
      simp only [List.append_assoc]

/-! ### One request -/

section Request

variable {s : TurnState}

/-- What is recorded beside the messages is none of them. -/
theorem rows_recorded (recorded : List (Bytes × Json)) (c : Conversation) :
    (recorded.foldl (fun c fact => c.recordDisplay fact.1 fact.2) c).rows = c.rows := by
  induction recorded generalizing c with
  | nil => rfl
  | cons fact recorded ih =>
    rw [List.foldl_cons, ih, Conversation.rows_recordDisplay]

theorem rows_erase_last {c : Conversation} {before : List ConversationRow} {row : ConversationRow}
    (h : c.rows = before ++ [row]) : (c.erase (c.rows.length - 1) c.rows.length).rows = before := by
  have hlength : c.rows.length = before.length + 1 := by
    rw [h, List.length_append, List.length_singleton]
  unfold Conversation.erase
  dsimp only
  rw [min_self, hlength, Nat.add_sub_cancel, min_eq_left (Nat.le_succ _),
    if_neg (Nat.not_succ_le_self _), ← hlength, List.drop_length, List.append_nil, h,
    List.take_left]

/-- A request leaves the messages as they were. -/
theorem ask_after (s : TurnState) (notes : List StepNote) (text : Bytes) (io : CallIo) :
    (s.ask notes text io).2.after = (s.ask notes text io).2.before := by
  unfold ask
  dsimp only
  by_cases htext : text = []
  · rw [if_pos htext, if_pos htext, rows_recorded]
  · rw [if_neg htext, if_neg htext]
    exact rows_erase_last ((rows_recorded io.recorded _).trans (Conversation.rows_push _ _ _ _))

/-- A note is the last of the messages sent, unless a context comes behind. -/
theorem chat_sent {io : CallIo} (hnote : s.note ≠ []) (hcontext : io.context = []) :
    ∃ message, (s.chat io).2.sent.getLast? = some message ∧
      jsonStringRef message (lit "content") = some (noteText s.note) := by
  have htext := noteText_ne_nil hnote
  refine ⟨normalizeRole (harnessMessage (noteText s.note)) .internal, ?_, rfl⟩
  unfold chat ask requestMessages
  dsimp only
  rw [if_neg htext, if_pos hcontext, Conversation.messages, Conversation.rows_push,
    List.map_append, List.map_append, List.map_singleton, List.map_singleton,
    List.getLast?_append]
  rfl

end Request

/-! ### One round -/

/-- An answer, rather than an interruption or an error. -/
def ModelCall.answered (call : ModelCall) : Bool :=
  !call.response.interrupted && call.response.error = []

namespace TurnState

/-- An interrupted request is taken up with what was queued. -/
def Resumed (response : ChatResult) (io : FailureIo) : Prop :=
  response.interrupted = true ∧ io.steering.isEmpty = false

/-- A failed request is tried again: after compaction, or with a capability
less. -/
def Retried (attachment : Bool) (s : TurnState) (response : ChatResult) (io : FailureIo) : Prop :=
  response.interrupted = false ∧ response.error ≠ [] ∧ io.deadline = none ∧
    if (!s.contextOverflowRecoveryAttempted && response.safeContextRecovery && !attachment) = true
    then io.compacted.isSome = true
    else (degradeAndRetry response s.capabilities).isSome = true

/-- Any other request is answered, or ends the turn. -/
theorem handleFailedResponse_fair {attachment : Bool} {s : TurnState} {response : ChatResult}
    {io : FailureIo} (hresumed : ¬Resumed response io)
    (hretried : ¬Retried attachment s response io) :
    (handleFailedResponse attachment s response io).2 = .proceed ∧ response.interrupted = false ∧
        response.error = [] ∨
      (handleFailedResponse attachment s response io).2 = .endTurn := by
  unfold handleFailedResponse
  cases hinterrupted : response.interrupted with
  | true =>
    rw [if_pos rfl]
    dsimp only
    rw [applyQueuedSteering_snd]
    have hempty : io.steering.isEmpty = true :=
      (Bool.eq_false_or_eq_true _).resolve_right fun hfalse => hresumed ⟨hinterrupted, hfalse⟩
    rw [hempty]
    exact .inr rfl
  | false =>
    rw [if_neg Bool.false_ne_true]
    by_cases herror : response.error = []
    · rw [if_pos herror]
      exact .inl ⟨rfl, rfl, herror⟩
    rw [if_neg herror]
    refine .inr ?_
    cases hdeadline : io.deadline with
    | some stop => rfl
    | none =>
      have hneither : ¬ite _ _ _ := fun h => hretried ⟨hinterrupted, herror, hdeadline, h⟩
      unfold TurnState.andThen stopAt
      rw [if_pos rfl]
      dsimp only
      split_ifs at hneither ⊢ with hsafe
      · cases hcompacted : io.compacted with
        | none => rfl
        | some conversation => exact absurd (by rw [hcompacted]; rfl) hneither
      · have hnone : s.degrade response io = none := by
          unfold degrade
          rw [Option.not_isSome_iff_eq_none.mp hneither]
          rfl
        rw [hnone]

end TurnState

/-- The state the request of a round is made in. -/
def TurnEntry.asked (e : TurnEntry) : TurnState := (e.before.prepareStep e.io.prepare).1

/-- The condition on a round: a request with a note has no context behind it,
and is neither taken up again nor tried again. -/
def TurnEntry.Fair (attachment : Bool) (e : TurnEntry) : Prop :=
  e.asked.note ≠ [] → e.io.call.context = [] ∧ ¬Resumed e.io.call.response e.io.failure ∧
    ¬Retried attachment e.asked e.io.call.response e.io.failure

section Round

variable (limits : TurnLimits) (attachment : Bool) (s : TurnState) (io : StepIo)

/-- The request of a round, if it makes one. -/
theorem turnStep_call {call : ModelCall} (h : (turnStep limits attachment s io).call = some call) :
    call = ((s.prepareStep io.prepare).1.chat io.call).2 := by
  unfold turnStep at h
  dsimp only at h
  split_ifs at h
  exact (Option.some.inj h).symm

/-- The notes a round began with and those it was given: they went out with
its request, or they are there still. -/
theorem turnStep_notes : ∃ more,
    (turnStep limits attachment s io).call.toList.flatMap (·.notes) ++
        (turnStep limits attachment s io).after.note = s.note ++ more ∧
      (turnStep limits attachment s io).after.pushed = s.pushed ++ more := by
  obtain ⟨before, hnote, hpushed⟩ := (tries_prepareStep s io.prepare).kept.notes
  unfold turnStep
  dsimp only
  split_ifs
  · have hkept : Kept ((s.prepareStep io.prepare).1.chat io.call).1
        (andThen (handleFailedResponse attachment ((s.prepareStep io.prepare).1.chat io.call).1
          io.call.response io.failure)
            fun s => s.respond limits io.call.response io.response).1 := by
      have hfailed := (tries_handleFailedResponse attachment
        ((s.prepareStep io.prepare).1.chat io.call).1 io.call.response io.failure).kept
      unfold TurnState.andThen
      split_ifs
      · exact hfailed.trans (calm_respond limits _ _ _).kept
      · exact hfailed
    obtain ⟨later, hlater, hlater'⟩ := hkept.notes
    refine ⟨before ++ later, ?_, ?_⟩
    · have htaken : ((s.prepareStep io.prepare).1.chat io.call).2.notes =
          (s.prepareStep io.prepare).1.note := rfl
      have hempty : ((s.prepareStep io.prepare).1.chat io.call).1.note = [] := rfl
      rw [hlater, Option.toList_some, List.flatMap_singleton, htaken, hempty, hnote,
        List.nil_append, List.append_assoc]
    · have hsame : ((s.prepareStep io.prepare).1.chat io.call).1.pushed =
          (s.prepareStep io.prepare).1.pushed := rfl
      rw [hlater', hsame, hpushed, List.append_assoc]
  · exact ⟨before, hnote, hpushed⟩

/-- In a fair round a note goes out last, and is answered or ends the turn. -/
theorem turnStep_fair
    (hfair : TurnEntry.Fair attachment ⟨s, io, turnStep limits attachment s io⟩) {call : ModelCall}
    (hcall : (turnStep limits attachment s io).call = some call) (hnotes : call.notes ≠ []) :
    (∃ message, call.sent.getLast? = some message ∧
        jsonStringRef message (lit "content") = some (noteText call.notes)) ∧
      (call.answered = true ∨ (turnStep limits attachment s io).flow = .endTurn) := by
  obtain rfl := turnStep_call limits attachment s io hcall
  obtain ⟨hcontext, hresumed, hretried⟩ := hfair hnotes
  refine ⟨chat_sent hnotes hcontext, ?_⟩
  rcases handleFailedResponse_fair (s := ((s.prepareStep io.prepare).1.chat io.call).1) hresumed
    hretried with ⟨-, hinterrupted, herror⟩ | hend
  · refine .inl ?_
    show (!io.call.response.interrupted && decide (io.call.response.error = [])) = true
    rw [hinterrupted, herror]
    rfl
  · refine .inr ?_
    unfold turnStep at hcall ⊢
    dsimp only at hcall ⊢
    split_ifs at hcall ⊢
    unfold TurnState.andThen
    rw [if_neg (by rw [hend]; exact StepFlow.noConfusion)]
    exact hend

end Round

/-! ### Runs -/

/-- What becomes of the notes of a run, and of the messages around its
requests. -/
structure NotesKept (limits : TurnLimits) (run : TurnRun) (answer : AnswerIo) : Prop where
  /-- A note goes out with one request, or the turn ends first. -/
  once : run.last.pushed = (stepCalls run.log).flatMap (·.notes) ++ run.last.note
  /-- It is part of the last message of that request. -/
  sent : ∀ call ∈ stepCalls run.log, ∀ note ∈ call.notes, ∃ message text,
    call.sent.getLast? = some message ∧ jsonStringRef message (lit "content") = some text ∧
      note.text <:+: text
  /-- That request is answered, or the turn ends with it. -/
  answered : ∀ e ∈ run.log, ∀ call, e.outcome.call = some call → call.notes ≠ [] →
    call.answered = true ∨ e.outcome.flow = .endTurn
  /-- After a request the messages are those before it. -/
  rows : ∀ call ∈ turnCalls limits run answer, call.after = call.before

variable {limits : TurnLimits} {attachment : Bool}

/-- The notes of a run, however it goes. -/
theorem turnLoop_notes (ios : List StepIo) (s : TurnState) : ∃ more,
    (stepCalls (turnLoop limits attachment s ios).log).flatMap (·.notes) ++
        (turnLoop limits attachment s ios).last.note = s.note ++ more ∧
      (turnLoop limits attachment s ios).last.pushed = s.pushed ++ more := by
  induction ios generalizing s with
  | nil =>
    unfold turnLoop
    split_ifs <;> exact ⟨[], (List.append_nil _).symm, (List.append_nil _).symm⟩
  | cons io ios ih =>
    obtain ⟨more, hnote, hpushed⟩ := turnStep_notes limits attachment s io
    unfold turnLoop
    dsimp only
    split_ifs
    · refine ⟨more, ?_, hpushed⟩
      rw [stepCalls_cons, List.flatMap_append, ← hnote, List.append_assoc]
      rfl
    · obtain ⟨more', hnote', hpushed'⟩ := ih (turnStep limits attachment s io).next
      have hnext : (turnStep limits attachment s io).next.note =
          (turnStep limits attachment s io).after.note ∧
          (turnStep limits attachment s io).next.pushed =
            (turnStep limits attachment s io).after.pushed := by
        unfold StepOutcome.next
        split_ifs <;> exact ⟨rfl, rfl⟩
      rw [hnext.1] at hnote'
      rw [hnext.2] at hpushed'
      refine ⟨more ++ more', ?_, by rw [hpushed', hpushed, List.append_assoc]⟩
      dsimp only
      rw [stepCalls_cons, List.flatMap_append, List.append_assoc, hnote', ← List.append_assoc,
        ← List.append_assoc, ← hnote]
    · exact ⟨[], (List.append_nil _).symm, (List.append_nil _).symm⟩

theorem mem_stepCalls {log : List TurnEntry} {call : ModelCall} (h : call ∈ stepCalls log) :
    ∃ e ∈ log, e.outcome.call = some call := List.mem_filterMap.mp h

/-- The answer at a limit is asked for like a step, with a message of its
own. -/
theorem answerAtLimit_call {s : TurnState} {io : AnswerIo} {call : ModelCall}
    (h : (answerAtLimit limits s io).2 = some call) :
    ∃ s' text, call = (TurnState.ask s' [] text io.call).2 := by
  unfold answerAtLimit at h
  dsimp only at h
  split_ifs at h <;> exact ⟨_, _, (Option.some.inj h).symm⟩

/-- No request of a turn leaves its note behind or takes another message. -/
theorem turnCalls_after (ios : List StepIo) (s : TurnState) (answer : AnswerIo) :
    ∀ call ∈ turnCalls limits (turnLoop limits attachment s ios) answer,
      call.after = call.before := by
  intro call hcall
  rcases List.mem_append.mp hcall with hstep | hanswer
  · obtain ⟨e, he, hcall⟩ := mem_stepCalls hstep
    have hevery : ∀ e ∈ (turnLoop limits attachment s ios).log, ∀ call,
        e.outcome.call = some call → call.after = call.before := by
      refine forall_mem_log (fun s io call hcall => ?_) ios s
      rw [turnStep_call limits attachment s io hcall]
      exact ask_after _ _ _ _
    exact hevery e he call hcall
  · rw [Option.mem_toList] at hanswer
    obtain ⟨s', text, rfl⟩ := answerAtLimit_call hanswer
    exact ask_after s' [] text answer.call

/-- The notes of a turn whose rounds are all fair. -/
theorem notesKept_of_fair (limits : TurnLimits) (attachment : Bool) (conversation : Conversation)
    (capabilities : ProviderCapabilities) (ios : List StepIo) (answer : AnswerIo)
    (hfair : ∀ e ∈ (turnLoop limits attachment (.start conversation capabilities) ios).log,
      e.Fair attachment) :
    NotesKept limits (turnLoop limits attachment (.start conversation capabilities) ios)
      answer := by
  have hevery : ∀ e ∈ (turnLoop limits attachment (.start conversation capabilities) ios).log,
      e.Fair attachment → ∀ call, e.outcome.call = some call → call.notes ≠ [] →
        (∃ message, call.sent.getLast? = some message ∧
          jsonStringRef message (lit "content") = some (noteText call.notes)) ∧
        (call.answered = true ∨ e.outcome.flow = .endTurn) :=
    forall_mem_log (fun s io hfair call hcall hnotes =>
      turnStep_fair limits attachment s io hfair hcall hnotes) ios _
  refine ⟨?_, fun call hcall note hnote => ?_, fun e he call hcall hnotes => ?_,
    turnCalls_after ios _ answer⟩
  · obtain ⟨more, hnote, hpushed⟩ := @turnLoop_notes limits attachment ios
      (.start conversation capabilities)
    exact hpushed.trans hnote.symm
  · obtain ⟨e, he, hcall⟩ := mem_stepCalls hcall
    obtain ⟨⟨message, hlast, htext⟩, -⟩ := hevery e he (hfair e he) call hcall
      (List.ne_nil_of_mem hnote)
    exact ⟨message, _, hlast, htext, infix_noteText hnote⟩
  · exact (hevery e he (hfair e he) call hcall hnotes).2

/-! ### A note that is heard, and one that is lost -/

/-- What the person queued. -/
def demoSteered : SteeredMessage := { content := .str (lit "stop after the tests") }

/-- The note about it goes out with an answered request. -/
theorem notesKept_of_fair_heard :
    NotesKept { maxSteps := 1 } (turnLoop { maxSteps := 1 } false (.start {} {})
      [{ prepare := { steering := [demoSteered] }
         call := { response := { content := lit "ok" } } }]) { call := { response := {} } } := by
  refine notesKept_of_fair { maxSteps := 1 } false {} {} _ _ (List.forall_mem_singleton.mpr ?_)
  exact fun _ => ⟨rfl, fun hresumed => absurd hresumed.1 Bool.false_ne_true,
    fun hretried => hretried.2.1 rfl⟩

/-- A request that is tried again without its parallel calls is tried again
without its note. -/
theorem not_notesKept_rejected :
    ¬NotesKept { maxSteps := 1 } (turnLoop { maxSteps := 1 } false (.start {} {})
      [{ prepare := { steering := [demoSteered] }
         call := { response := { httpStatus := 400, error := lit "parallel_tool_calls" } } },
        { call := { response := { content := lit "ok" } } }]) { call := { response := {} } } := by
  intro hkept
  rcases hkept.answered _ (List.mem_cons_self ..) _ rfl (List.cons_ne_nil _ _) with
    hanswered | hend
  · exact absurd hanswered (by decide)
  · exact absurd hend (by decide)

end UAgent
