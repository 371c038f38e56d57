/-
UAgent/Agent/TurnEnds.lean

A turn with a step limit ends, whatever it meets (src/agent/turn.cc).

A round that is tried again does not count as a step.  It is tried again after
compaction, which a turn asks for once, after recovering from a full context,
which it does once, and after switching off a capability of its route, which
nothing in the turn switches on again.  So a turn makes as many requests as it
has steps and capabilities, and one for the full context (`turnLoop_requests`).
-/
import UAgent.Agent.TurnSteps

namespace UAgent

open Bytes TurnState

/-! ### One round -/

/-- What is left to be switched off before a round can no longer be tried
again. -/
def TurnState.retryMeasure (s : TurnState) : Nat := s.compactionsLeft + s.retriesLeft

theorem TurnState.compactionsLeft_le (s : TurnState) : s.compactionsLeft ≤ 1 := Bool.toNat_le _

theorem TurnState.retriesLeft_le (s : TurnState) : s.retriesLeft ≤ 8 :=
  Nat.add_le_add (Bool.toNat_le _) s.capabilities.count_le

/-- What a round leaves to be switched off. -/
structure Paced (s : TurnState) (outcome : StepOutcome) : Prop where
  step : outcome.after.step = s.step
  compactions : outcome.after.compactionsLeft ≤ s.compactionsLeft
  retries : outcome.after.retriesLeft ≤ s.retriesLeft
  retry : outcome.flow = .retryStep →
    outcome.call = none ∧ outcome.after.compactionsLeft < s.compactionsLeft ∨
      outcome.after.retriesLeft < s.retriesLeft

theorem paced_turnStep (limits : TurnLimits) (attachment : Bool) (s : TurnState) (io : StepIo) :
    Paced s (turnStep limits attachment s io) := by
  have hprepared := tries_prepareStep s io.prepare
  unfold turnStep
  dsimp only
  split_ifs
  · -- The request itself takes the note, and switches nothing off.
    have hasked : Tries retriesLeft ((s.prepareStep io.prepare).1.chat io.call).1
        (andThen (handleFailedResponse attachment ((s.prepareStep io.prepare).1.chat io.call).1
          io.call.response io.failure) fun s => s.respond limits io.call.response io.response) := by
      have hfailed := tries_handleFailedResponse attachment
        ((s.prepareStep io.prepare).1.chat io.call).1 io.call.response io.failure
      unfold TurnState.andThen
      split_ifs
      · exact .trans hfailed.kept.retriesLeft_le hfailed.kept (calm_respond limits _ _ _).tries
      · exact hfailed
    exact
      { step := hasked.kept.step.trans hprepared.kept.step
        compactions := hasked.kept.compactionsLeft_le.trans hprepared.kept.compactionsLeft_le
        retries := hasked.kept.retriesLeft_le.trans hprepared.kept.retriesLeft_le
        retry := fun h => .inr ((hasked.retry h).trans_le hprepared.kept.retriesLeft_le) }
  · exact
      { step := hprepared.kept.step
        compactions := hprepared.kept.compactionsLeft_le
        retries := hprepared.kept.retriesLeft_le
        retry := fun h => .inl ⟨rfl, hprepared.retry h⟩ }

/-- A round that is tried again has less to switch off. -/
theorem Paced.retryMeasure_lt {s : TurnState} {outcome : StepOutcome} (h : Paced s outcome)
    (hretry : outcome.flow = .retryStep) : outcome.after.retryMeasure < s.retryMeasure := by
  have hcompactions := h.compactions
  have hretries := h.retries
  unfold TurnState.retryMeasure
  rcases h.retry hretry with ⟨-, hless⟩ | hless <;> omega

/-! ### Runs -/

variable {limits : TurnLimits} {attachment : Bool}

/-- What holds of every round holds of every round of a run. -/
theorem forall_mem_log {P : TurnEntry → Prop}
    (h : ∀ s io, P ⟨s, io, turnStep limits attachment s io⟩) (ios : List StepIo) (s : TurnState) :
    ∀ e ∈ (turnLoop limits attachment s ios).log, P e := by
  induction ios generalizing s with
  | nil =>
    unfold turnLoop
    split_ifs <;> exact fun e he => absurd he List.not_mem_nil
  | cons io ios ih =>
    unfold turnLoop
    dsimp only
    split_ifs
    · exact List.forall_mem_singleton.mpr (h s io)
    · exact List.forall_mem_cons.mpr ⟨h s io, ih _⟩
    · exact fun e he => absurd he List.not_mem_nil

theorem stepCalls_cons (e : TurnEntry) (log : List TurnEntry) :
    stepCalls (e :: log) = e.outcome.call.toList ++ stepCalls log := by
  unfold stepCalls
  rw [List.filterMap_cons]
  cases e.outcome.call with
  | none => rfl
  | some call => rfl

/-- Where the next round begins: a step further, unless it is tried again. -/
theorem Paced.next {s : TurnState} {outcome : StepOutcome} (h : Paced s outcome) :
    outcome.next.compactionsLeft = outcome.after.compactionsLeft ∧
      outcome.next.retriesLeft = outcome.after.retriesLeft ∧
        (outcome.flow = .retryStep ∧ outcome.next.step = s.step ∨
          outcome.flow ≠ .retryStep ∧ outcome.next.step = s.step + 1) := by
  unfold StepOutcome.next
  split_ifs with hretry
  · exact ⟨rfl, rfl, .inl ⟨hretry, h.step⟩⟩
  · exact ⟨rfl, rfl, .inr ⟨hretry, congrArg (· + 1) h.step⟩⟩

theorem length_toList_le (call : Option ModelCall) : call.toList.length ≤ 1 := by
  cases call with
  | none => exact Nat.zero_le 1
  | some call => exact le_rfl

/-- The requests of a run: one a step, and one for each thing left to switch
off. -/
theorem turnLoop_requests (hlimit : 0 < limits.maxSteps) (ios : List StepIo) (s : TurnState) :
    (stepCalls (turnLoop limits attachment s ios).log).length ≤
      (limits.maxSteps - s.step).toNat + s.retriesLeft := by
  induction ios generalizing s with
  | nil =>
    unfold turnLoop
    split_ifs <;> exact Nat.zero_le _
  | cons io ios ih =>
    have hpaced := paced_turnStep limits attachment s io
    have hretries := hpaced.retries
    have hone := length_toList_le (turnStep limits attachment s io).call
    unfold turnLoop
    dsimp only
    split_ifs with hmore hend
    · rw [stepCalls_cons, List.length_append]
      show (turnStep limits attachment s io).call.toList.length + 0 ≤ _
      omega
    · have hrest := ih (turnStep limits attachment s io).next
      obtain ⟨-, hleft, hstep⟩ := hpaced.next
      rw [hleft] at hrest
      rw [stepCalls_cons, List.length_append]
      dsimp only
      rcases hstep with ⟨hretry, hstep⟩ | ⟨-, hstep⟩
      · rw [hstep] at hrest
        rcases hpaced.retry hretry with ⟨hnone, -⟩ | hless
        · rw [hnone, Option.toList_none, List.length_nil]
          omega
        · omega
      · rw [hstep] at hrest
        omega
    · exact Nat.zero_le _

/-- A run is over after as many rounds as it has steps and things to switch
off. -/
theorem turnLoop_ended (hlimit : 0 < limits.maxSteps) (ios : List StepIo) (s : TurnState)
    (hlong : (limits.maxSteps - s.step).toNat + s.retryMeasure ≤ ios.length) :
    (turnLoop limits attachment s ios).ended = true := by
  induction ios generalizing s with
  | nil =>
    unfold turnLoop
    split_ifs with hmore
    · rw [List.length_nil] at hlong
      omega
    · rfl
  | cons io ios ih =>
    have hpaced := paced_turnStep limits attachment s io
    unfold turnLoop
    dsimp only
    split_ifs with hmore hend
    · rfl
    · refine ih _ ?_
      obtain ⟨hcompactions, hleft, hstep⟩ := hpaced.next
      have hmeasure : (turnStep limits attachment s io).next.retryMeasure =
          (turnStep limits attachment s io).after.retryMeasure :=
        congrArg₂ (· + ·) hcompactions hleft
      have hle : (turnStep limits attachment s io).after.retryMeasure ≤ s.retryMeasure :=
        Nat.add_le_add hpaced.compactions hpaced.retries
      rw [List.length_cons] at hlong
      rw [hmeasure]
      rcases hstep with ⟨hretry, hstep⟩ | ⟨-, hstep⟩
      · have hless := hpaced.retryMeasure_lt hretry
        rw [hstep]
        omega
      · rw [hstep]
        omega
    · rfl

/-! ### Turns -/

/-- What a step limit promises of a turn over what its rounds meet. -/
structure TurnBounded (limits : TurnLimits) (ios : List StepIo) (run : TurnRun)
    (answer : AnswerIo) : Prop where
  /-- A round that is tried again has less left to switch off. -/
  retried : ∀ e ∈ run.log, e.outcome.flow = .retryStep →
    e.outcome.after.retryMeasure < e.before.retryMeasure
  /-- The loop ends. -/
  ended : limits.maxSteps.toNat + 9 ≤ ios.length → run.ended = true
  /-- Its rounds make a request a step, and eight more at most. -/
  requests : (stepCalls run.log).length ≤ limits.maxSteps.toNat + 8
  /-- The answer at a limit is one more at most. -/
  answered : (turnCalls limits run answer).length ≤ (stepCalls run.log).length + 1

/-- A turn with a step limit ends, whatever it meets. -/
theorem turn_bounded (limits : TurnLimits) (hlimit : 0 < limits.maxSteps) (attachment : Bool)
    (conversation : Conversation) (capabilities : ProviderCapabilities) (ios : List StepIo)
    (answer : AnswerIo) :
    TurnBounded limits ios (turnLoop limits attachment (.start conversation capabilities) ios)
      answer where
  retried := forall_mem_log (P := fun e => e.outcome.flow = .retryStep →
      e.outcome.after.retryMeasure < e.before.retryMeasure)
    (fun s io hretry => (paced_turnStep limits attachment s io).retryMeasure_lt hretry) ios _
  ended hlong := by
    refine turnLoop_ended hlimit ios _ ?_
    have hcompactions := (TurnState.start conversation capabilities).compactionsLeft_le
    have hretries := (TurnState.start conversation capabilities).retriesLeft_le
    show (limits.maxSteps - 0).toNat + (_ + _) ≤ _
    omega
  requests := by
    have hrequests := @turnLoop_requests limits attachment hlimit ios
      (.start conversation capabilities)
    have hretries := (TurnState.start conversation capabilities).retriesLeft_le
    have hstart : (TurnState.start conversation capabilities).step = 0 := rfl
    rw [hstart] at hrequests
    omega
  answered := by
    rw [turnCalls, List.length_append]
    exact Nat.add_le_add_left (length_toList_le _) _

/-- A provider that does not know of parallel calls, and then answers. -/
def rejectedScript : List StepIo :=
  [{ call := { response := { httpStatus := 400, error := lit "parallel_tool_calls" } } },
    { call := { response := { content := lit "ok" } } }]

/-- Its turn has one step, and makes two requests. -/
theorem turn_bounded_rejected :
    (stepCalls (turnLoop { maxSteps := 1 } false (.start {} {}) rejectedScript).log).length = 2 ∧
      TurnBounded { maxSteps := 1 } rejectedScript
        (turnLoop { maxSteps := 1 } false (.start {} {}) rejectedScript)
        { call := { response := {} } } :=
  ⟨by decide, turn_bounded { maxSteps := 1 } Int.one_pos false {} {} rejectedScript
    { call := { response := {} } }⟩

end UAgent
