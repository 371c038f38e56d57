/-
UAgent/Agent/TurnState.lean

The state of a running turn and the faults it counts
(src/agent/turn_internal.h, src/agent/turn_budgets.cc).

A note is what the harness has to tell the model about a step.  The source
joins those of one step into one text; here they stay a list, which says the
same, since no note is empty (`StepNote`).  `pushed` is every note of the turn
in the order it was pushed: the source keeps no such list, it is here to say
what becomes of them.

What is shown beside a message (times, costs, routes) is left out, and so are
the numbers behind a budget: what a clock or a price says comes with the step.
-/
import UAgent.Agent.Conversation
import UAgent.Api.RouteCapabilities
import UAgent.App.SessionMove

namespace UAgent

open Bytes

/-! ### Limits and stops -/

/-- `TurnOutcome` -/
inductive TurnOutcome where
  | stepLimit
  | budgetExceeded
  | interrupted
  | error
  | complete
deriving DecidableEq

/-- `TurnStopReason` -/
inductive TurnStopReason where
  | none
  | turnDeadline
  | sessionTokenBudget
  | turnTokens
  | sessionBudget
  | turnCost
  | maxToolCalls
  | repeatedCalls
  | maxSteps
deriving DecidableEq

/-- `TurnLimits`, and the setting for repeated calls. -/
structure TurnLimits where
  maxSteps : Int
  maxToolCalls : Int := 0
  repeatedCallStop : Int := 0

/-- `StepFlow` -/
inductive StepFlow where
  | proceed
  | retryStep
  | nextStep
  | endTurn
deriving DecidableEq

/-! ### Faults -/

/-- `Fault` -/
inductive Fault where
  | empty
  | markup
  | nameless
  | cutOff
  | repeated
  | quietPoll
  | failedTools
deriving DecidableEq

/-- What the model is told about a step; never nothing. -/
structure StepNote where
  text : Bytes
  ne_nil : text ≠ []

/-- Every note opens with a bracket. -/
def bracketed (rest : Bytes) : StepNote := ⟨ch '[' :: rest, List.cons_ne_nil _ _⟩

/-- What a fault's rule advises, without the bracket, and at which strike; at
every one for zero. -/
structure FaultAdvice where
  strike : Nat
  rest : Bytes

/-- `FaultRule`; `stopAfter` is none where the setting decides. -/
structure FaultRule where
  stopAfter : Option Int
  stopReason : TurnStopReason := .none
  stopped : Bytes
  advice : List FaultAdvice

def kRepeatedCallAdviseAfter : Nat := 3
def kRepeatedCallDirectAfter : Nat := 6
def kRejectedCallStopAfter : Nat := 3
def kFailedToolAdviseAfter : Nat := 3
def kActivityPollAdviseAfter : Nat := 2
def kActivityPollDirectAfter : Nat := 4
def kActivityPollStopAfter : Int := 12

/-- `kStoppedBeforeCompletion` -/
def kStoppedBeforeCompletion : Bytes :=
  lit "model response stopped before completion (\x7bx\x7d)"

/-- `UAGENT_WAIT_INSTEAD` -/
def waitInstead : Bytes := lit "use a bounded wait operation when you are observing ongoing work."

/-- `kFaultRules` -/
def faultRules : Fault → FaultRule
  | .empty =>
    { stopAfter := some 3
      stopped := lit "model returned an empty response"
      advice := [⟨2, lit "empty model response] \x7bx\x7d"⟩] }
  | .markup =>
    { stopAfter := some 2
      stopped := lit "model repeatedly returned invalid tool markup"
      advice := [⟨0, lit "invalid model tool markup] The attempted call was not executed. " ++
        lit "Return prose using existing results; do not imitate a tool protocol."⟩] }
  | .nameless =>
    { stopAfter := some 3
      stopped := lit "model kept sending tool calls without a function name"
      advice := [⟨0, lit "invalid model tool call] A tool call arrived without a function " ++
        lit "name and was not run. Send it again as one complete call."⟩] }
  | .cutOff =>
    { stopAfter := some 2
      stopped := kStoppedBeforeCompletion
      advice := [⟨0, lit "partial model response: \x7bx\x7d] Continue exactly where the " ++
        lit "response stopped. Do not repeat completed content or work."⟩] }
  | .repeated =>
    { stopAfter := none
      stopReason := .repeatedCalls
      stopped := lit "model repeated the same tool call \x7bn\x7d times after two recovery " ++
        lit "instructions"
      advice :=
        [⟨kRepeatedCallAdviseAfter,
            lit "repeated tool advisory] The same tool and arguments have already run \x7bn\x7d " ++
            lit "consecutive times. Reassess whether another identical result can add " ++
            lit "evidence. Use the current result, change the request, or " ++ waitInstead⟩,
          ⟨kRepeatedCallDirectAfter,
            lit "repeated tool advisory] The same tool and arguments have already run \x7bn\x7d " ++
            lit "consecutive times. Do not issue that unchanged call again. Use its existing " ++
            lit "result, change the arguments or strategy, or " ++ waitInstead⟩] }
  | .quietPoll =>
    { stopAfter := some kActivityPollStopAfter
      stopped := lit "activity \x7bx\x7d is still running, but the model polled it \x7bn\x7d " ++
        lit "times without new output and without waiting on it"
      advice :=
        [⟨kActivityPollAdviseAfter,
            lit "activity poll advisory] Activity \x7bx\x7d is still running and has returned " ++
            lit "no new output \x7bn\x7d times. Do not poll it again immediately. If completion " ++
            lit "blocks the next step, issue one bounded activity call with operation=wait, " ++
            lit "mode=any, and wait_ms; otherwise continue independent work."⟩,
          ⟨kActivityPollDirectAfter,
            lit "activity poll advisory] Activity \x7bx\x7d is still running and has returned " ++
            lit "no new output \x7bn\x7d times. Stop polling it: this turn ends in an error if you " ++
            lit "keep polling without waiting. Either issue one activity call with " ++
            lit "operation=wait, mode=any and wait_ms, or read the output it writes elsewhere, " ++
            lit "or do independent work and revisit it later."⟩] }
  | .failedTools =>
    { stopAfter := some 0
      stopped := []
      advice := [⟨kFailedToolAdviseAfter,
        lit "tool failure advisory] \x7bn\x7d consecutive tool calls failed. Reassess the " ++
        lit "shared premise or execution environment before trying another variant; use existing " ++
        lit "evidence or a different approach when possible."⟩] }

/-- A slot of a text is filled, where it first stands. -/
def fillSlot (slot value text : Bytes) : Bytes :=
  match find slot text with
  | some place => text.take place ++ value ++ text.drop (place + 3)
  | none => text

/-- `FaultText` -/
def faultText (text : Bytes) (strike : Nat) (about : Bytes) : Bytes :=
  fillSlot (lit "\x7bx\x7d") about (fillSlot (lit "\x7bn\x7d") (Json.decimal strike) text)

/-! ### State -/

/-- `StepState::Recovery` -/
structure Recovery where
  rejectionRounds : List (Bytes × Nat) := []
  editFailures : List (Bytes × Nat) := []
  lastCall : Bytes := []
  quietActivityId : Int := 0
  strikes : Fault → Nat := fun _ => 0

/-- What a turn carries from step to step: `StepState`, and of
`TurnExecution` and the agent what its loop changes. -/
structure TurnState where
  conversation : Conversation
  capabilities : ProviderCapabilities
  recovery : Recovery := {}
  step : Int := 0
  toolCount : Int := 0
  acceptanceRevision : Nat := 1
  providerContinuations : Nat := 0
  contextOverflowRecoveryAttempted : Bool := false
  midturnCompactionEnabled : Bool := true
  note : List StepNote := []
  pushed : List StepNote := []
  outcome : TurnOutcome := .stepLimit
  reason : TurnStopReason := .none
  lastError : Bytes := []
  complete : Bool := false

/-- A budget that is used up: which, and what the turn ends with. -/
structure BudgetStop where
  reason : TurnStopReason
  message : Bytes

namespace TurnState

/-- `Conversation::Push`; the time shown with a message is left out. -/
def push (s : TurnState) (message : Json) (kind : MessageKind) : TurnState :=
  { s with conversation := s.conversation.push message kind [] }

/-- `PushStepNote` -/
def pushStepNote (s : TurnState) (note : StepNote) : TurnState :=
  { s with note := s.note ++ [note], pushed := s.pushed ++ [note] }

/-- `FailTurn` -/
def failTurn (s : TurnState) (message : Bytes) : TurnState :=
  { s with lastError := message, outcome := .error }

/-- `FailBudget` -/
def failBudget (s : TurnState) (stop : BudgetStop) : TurnState :=
  { s with lastError := stop.message, outcome := .budgetExceeded, reason := stop.reason }

/-- `InterruptTurn` -/
def interruptTurn (s : TurnState) : TurnState × StepFlow :=
  ({ s with outcome := .interrupted, lastError := lit "interrupted" }, .endTurn)

/-- `loop.recovery = recovery`. -/
def recover (s : TurnState) (recovery : Recovery) : TurnState := { s with recovery }

/-- `last_call = call`. -/
def setLastCall (s : TurnState) (call : Bytes) : TurnState :=
  s.recover { s.recovery with lastCall := call }

/-- How often a fault has been made. -/
def setStrikes (s : TurnState) (fault : Fault) (strikes : Nat) : TurnState :=
  s.recover { s.recovery with strikes := Function.update s.recovery.strikes fault strikes }

/-- `Advise` -/
def advise (s : TurnState) (fault : Fault) (about : Bytes) : TurnState :=
  let strike := s.recovery.strikes fault
  (faultRules fault).advice.foldl (fun s advice =>
    if advice.strike = 0 ∨ advice.strike = strike then
      s.pushStepNote (bracketed (faultText advice.rest strike about))
    else s) s

/-- `Strike` -/
def strike (limits : TurnLimits) (s : TurnState) (fault : Fault) (about : Bytes := [])
    (advises : Bool := true) : TurnState × Bool :=
  let rule := faultRules fault
  let strike := s.recovery.strikes fault + 1
  let s := s.setStrikes fault strike
  let stopAfter := rule.stopAfter.getD limits.repeatedCallStop
  if 0 < stopAfter ∧ stopAfter ≤ strike then
    let message := faultText rule.stopped strike about
    (if rule.stopReason = .none then s.failTurn message
      else s.failBudget ⟨rule.stopReason, message⟩, false)
  else (if advises then s.advise fault about else s, true)

end TurnState

end UAgent
