/-
UAgent/Agent/TurnLoop.lean

The loop of a turn (src/agent/turn.cc, src/agent/turn_response.cc): a step is
prepared, the model is asked, and what comes back ends the turn, is tried
again, or makes the next step.

Everything a step meets comes with it: what was queued meanwhile, what clocks
and budgets say, what compaction makes of the conversation, what the provider
answers and what the tools return.
-/
import UAgent.Agent.TurnState
import UAgent.Api.AnthropicRequest

namespace UAgent

open Bytes

/-! ### What a step meets -/

/-- A queued message as it is applied. -/
structure SteeredMessage where
  /-- what `ExplicitSkillContext` selects for it -/
  skills : List Bytes := []
  content : Json
  attachment : Bool := false
  /-- it has no origin: the person wrote it -/
  person : Bool := true

/-- What `PrepareStep` meets. -/
structure PrepareIo where
  steering : List SteeredMessage := []
  /-- `SysMsg` -/
  system : Json := .null
  promptError : Bytes := []
  stopped : Bool := false
  deadline : Option BudgetStop := none
  refreshed : Option BudgetStop := none
  /-- what `DrainActivities` pushes -/
  arrived : List (Json × MessageKind) := []
  tokens : Option BudgetStop := none
  cost : Option BudgetStop := none
  /-- `ContextNeedsCompaction` -/
  needsCompaction : Bool := false
  /-- what `Compact` makes of the conversation, when it returns true -/
  compacted : Option Conversation := none

/-- What a request meets. -/
structure CallIo where
  /-- what `PrepareRequestMessages` makes of a message with parts -/
  deliver : Json → Json := id
  /-- `RequestContext` -/
  context : Bytes := []
  /-- the facts recorded beside the messages -/
  recorded : List (Bytes × Json) := []
  response : ChatResult

/-- What `HandleFailedResponse` meets. -/
structure FailureIo where
  steering : List SteeredMessage := []
  deadline : Option BudgetStop := none
  /-- `RuntimeContextText` -/
  runtimeContext : Bytes := []
  compacted : Option Conversation := none

/-- A call as `ToolCallsWithinLimits` sees it. -/
structure CallShape where
  signature : Bytes
  /-- `ToolCallBlocks` -/
  blocks : Bool := false

/-- `ActivityPollResult` -/
structure ActivityPollResult where
  id : Int
  ok : Bool
  noChange : Bool
  terminal : Bool

/-- A rejection: what it is known by, and what the model was told. -/
structure RejectedCall where
  tool : Bytes
  key : Bytes
  message : Bytes

/-- What became of a call. -/
structure CallOutcome where
  message : Json
  executed : Bool := true
  ok : Bool := true
  recoveryKey : Bytes := []
  /-- the failure forgotten for it, when there are as many as are kept -/
  forgotten : Bytes := []
  poll : Option ActivityPollResult := none
  issue : Option RejectedCall := none

/-- What the rest of a step meets. -/
structure ResponseIo where
  /-- `CitationMarkdown` -/
  citations : Bytes := []
  /-- what `PreserveAssistantReasoning` adds to the message -/
  preserved : List (Bytes × Json) := []
  /-- `ReplayHoldsHostedTool` -/
  holdsHostedTool : Bool := false
  tokens : Option BudgetStop := none
  cost : Option BudgetStop := none
  shapes : List CallShape := []
  outcomes : List CallOutcome := []
  interrupted : Bool := false
  steering : List SteeredMessage := []
  deadline : Option BudgetStop := none

/-- What a step meets. -/
structure StepIo where
  prepare : PrepareIo := {}
  call : CallIo
  failure : FailureIo := {}
  response : ResponseIo := {}

/-! ### Requests -/

/-- `ResponseStopCauseName` -/
def ResponseStopCause.name : ResponseStopCause → Bytes
  | .none => lit "none"
  | .complete => lit "complete"
  | .length => lit "length"
  | .pause => lit "pause"
  | .policy => lit "policy"
  | .inputLimit => lit "input_limit"
  | .timeLimit => lit "time_limit"
  | .other => lit "other"

/-- The text of the notes of a step. -/
def noteText (notes : List StepNote) : Bytes := joinWith (lit "\n\n") (notes.map (·.text))

/-- `WithRequestContext` -/
def withRequestContext (messages : List Json) (context : Bytes) : List Json :=
  messages.modify (messages.length - 1) (fun message =>
    if message.isObject then message.set kCacheBreakpointField (.bool true) else message) ++
    [(harnessMessage context).set (lit "role") (.str (lit "user"))]

/-- The messages of a request. -/
def requestMessages (io : CallIo) (messages : List Json) : List Json :=
  let projected := messages.map fun message =>
    if (jsonArray message (lit "content")).isSome then io.deliver message else message
  if io.context = [] then projected else withRequestContext projected io.context

/-- One request of a turn: the notes it carries, the messages that were there,
those it sent, the answer, and the messages there are then. -/
structure ModelCall where
  notes : List StepNote
  before : List ConversationRow
  sent : List Json
  response : ChatResult
  after : List ConversationRow

namespace TurnState

/-- `Chat`, with a message of the harness pushed for it and erased after it;
none when the text is empty. -/
def ask (s : TurnState) (notes : List StepNote) (text : Bytes) (io : CallIo) :
    TurnState × ModelCall :=
  let noted :=
    if text = [] then s.conversation else s.conversation.push (harnessMessage text) .internal []
  let answered := io.recorded.foldl (fun c fact => c.recordDisplay fact.1 fact.2) noted
  let after :=
    if text = [] then answered else answered.erase (answered.rows.length - 1) answered.rows.length
  ({ s with conversation := after },
    { notes, before := s.conversation.rows, sent := requestMessages io noted.messages,
      response := io.response, after := after.rows })

/-- `Chat` with the note of the step. -/
def chat (s : TurnState) (io : CallIo) : TurnState × ModelCall :=
  ask { s with note := [] } s.note (noteText s.note) io

/-! ### Preparing a step -/

/-- `kExplicitSkillMarker` -/
def kExplicitSkillMarker : Bytes := lit "[explicit skill instructions"

/-- `PushSkillContext` -/
def pushSkillContext (s : TurnState) (skill : Bytes) : TurnState :=
  s.push (harnessMessage (kExplicitSkillMarker ++ lit "; user selected]\n" ++ skill)) .internal

/-- `PushUserInput` -/
def pushUserInput (s : TurnState) (content : Json) (attachment : Bool) : TurnState :=
  s.push (.ofFields [(lit "role", .str (lit "user")), (lit "content", content)])
    (if attachment then .attachment else .user)

/-- One round of the loop of `ApplyQueuedSteering`. -/
def pushSteered (s : TurnState) (message : SteeredMessage) : TurnState :=
  (message.skills.foldl pushSkillContext s).pushUserInput message.content message.attachment

/-- The note about criteria that changed. -/
def acceptanceNote (revision : Nat) : StepNote :=
  bracketed (lit "acceptance update revision " ++ Json.decimal revision ++
    lit "] Reconcile current acceptance criteria. Earlier verification covers prior " ++
    lit "requirements; rerun affected checks before claiming completion.")

/-- `ApplyQueuedSteering`, with whether there was anything. -/
def applyQueuedSteering (s : TurnState) (queued : List SteeredMessage) : TurnState × Bool :=
  if queued.isEmpty then (s, false)
  else
    let s := (queued.foldl pushSteered s).recover {}
    if queued.any (·.person) then
      let s := { s with acceptanceRevision := s.acceptanceRevision + 1 }
      (s.pushStepNote (acceptanceNote s.acceptanceRevision), true)
    else (s, true)

/-- What ends a turn that is asked for a budget. -/
def stopAt (s : TurnState) (hit : Option BudgetStop) : TurnState × StepFlow :=
  match hit with
  | some stop => (s.failBudget stop, .endTurn)
  | none => (s, .proceed)

/-- What follows, unless the step is over. -/
def andThen (r : TurnState × StepFlow) (next : TurnState → TurnState × StepFlow) :
    TurnState × StepFlow :=
  if r.2 = .proceed then next r.1 else r

/-- What follows a fault, unless it ends the turn. -/
def strikeThen (limits : TurnLimits) (s : TurnState) (fault : Fault) (about : Bytes)
    (advises : Bool) (next : TurnState → TurnState × StepFlow) : TurnState × StepFlow :=
  let r := strike limits s fault about advises
  if r.2 then next r.1 else (r.1, .endTurn)

/-- `MaybeCompactDuringTurn`, and what `PrepareStep` makes of it. -/
def compactDuringTurn (s : TurnState) (io : PrepareIo) : TurnState × StepFlow :=
  if 0 < s.step ∧ s.midturnCompactionEnabled then
    if s.conversation.kinds.contains .attachment || !io.needsCompaction then (s, .proceed)
    else
      ({ s with
          midturnCompactionEnabled := false
          conversation := io.compacted.getD s.conversation }, .retryStep)
  else (s, .proceed)

/-- `PrepareStep` -/
def prepareStep (s : TurnState) (io : PrepareIo) : TurnState × StepFlow :=
  let s := (s.applyQueuedSteering io.steering).1
  let s := { s with conversation := s.conversation.set 0 io.system .system }
  if io.promptError ≠ [] then (s.failTurn io.promptError, .endTurn)
  else if io.stopped then s.interruptTurn
  else
    andThen (s.stopAt (io.deadline.or io.refreshed)) fun s =>
      let s := io.arrived.foldl (fun s arrived => s.push arrived.1 arrived.2) s
      andThen (s.stopAt (io.tokens.or io.cost)) (·.compactDuringTurn io)

/-! ### Failed requests -/

/-- `EnsureRuntimeContext` -/
def ensureRuntimeContext (s : TurnState) (content : Bytes) : TurnState :=
  let last := s.conversation.rows.reverse.findSome? fun row =>
    if row.kind = .runtimeContext then jsonStringRef row.message (lit "content") else none
  if last.getD [] = content then s else s.push (harnessMessage content) .runtimeContext

/-- The text of an interrupted answer. -/
def interruptedText : Bytes := lit "(response interrupted; partial output was discarded)"

/-- `DegradeAndRetry`, as the turn sees it: attachments that are delivered
another way are a new runtime context. -/
def degrade (s : TurnState) (response : ChatResult) (io : FailureIo) : Option TurnState :=
  (degradeAndRetry response s.capabilities).map fun capabilities =>
    let next := { s with capabilities }
    if rejectedRouteCapability response s.capabilities ∈
        [.imageInput, .fileInput, .audioInput, .videoInput] then
      next.ensureRuntimeContext io.runtimeContext
    else next

/-- `HandleFailedResponse`; `attachment` is whether the turn began with one. -/
def handleFailedResponse (attachment : Bool) (s : TurnState) (response : ChatResult)
    (io : FailureIo) : TurnState × StepFlow :=
  if response.interrupted then
    let steered :=
      (s.push (harnessMessage interruptedText) .internal).applyQueuedSteering io.steering
    if steered.2 then (steered.1, .nextStep) else steered.1.interruptTurn
  else if response.error = [] then (s, .proceed)
  else
    andThen (s.stopAt io.deadline) fun s =>
      if !s.contextOverflowRecoveryAttempted && response.safeContextRecovery && !attachment then
        let s :=
          { s with contextOverflowRecoveryAttempted := true, midturnCompactionEnabled := false }
        match io.compacted with
        | some conversation => ({ s with conversation }, .retryStep)
        | none => (s.failTurn response.error, .endTurn)
      else
        match s.degrade response io with
        | some s => (s, .retryStep)
        | none => (s.failTurn response.error, .endTurn)

/-! ### Answers -/


/-- `PushAssistantMessage` -/
def pushAssistantMessage (s : TurnState) (response : ChatResult) (content : Bytes)
    (calls : List ResponseCall) (io : ResponseIo) : TurnState :=
  let message := Json.ofFields [(lit "role", .str (lit "assistant")), (lit "content", .str content)]
  let encoded := calls.map fun call =>
    Json.ofFields [(lit "id", .str call.id), (lit "type", .str (lit "function")),
      (lit "function", .ofFields [(lit "name", .str call.name), (lit "arguments", .str call.args)])]
  let message :=
    if calls = [] then message
    else
      let message := message.set (lit "tool_calls") (.arr encoded)
      if content = [] then message.set (lit "content") .null else message
  let message :=
    if calls ≠ [] ∨ response.stopCause = .pause ∨ io.holdsHostedTool then
      io.preserved.foldl (fun message field => message.set field.1 field.2) message
    else message
  s.push message .assistant

/-- What an answer that stopped early is said to have stopped for. -/
def stopText (response : ChatResult) : Bytes :=
  if response.finishReason = [] then response.stopCause.name else response.finishReason

/-- `HandleResponseStop` -/
def handleResponseStop (limits : TurnLimits) (s : TurnState) (response : ChatResult)
    (content : Bytes) (io : ResponseIo) : TurnState × StepFlow :=
  let cause := response.stopCause
  let calls := response.toolCalls ≠ []
  let cut := cause = .length ∨ cause = .inputLimit
  if cause = .none ∨ cause = .complete ∨ cause = .pause ∨ calls ∧ cut then (s, .proceed)
  else if cause = .other ∨ ¬calls ∧ cut then
    strikeThen limits s .cutOff (stopText response) true fun s =>
      (if content = [] then s else s.pushAssistantMessage response content [] io, .nextStep)
  else (s.failTurn (faultText kStoppedBeforeCompletion 0 (stopText response)), .endTurn)

/-- The loop of `ToolCallsWithinLimits`. -/
def countRepeats (limits : TurnLimits) : TurnState → List CallShape → TurnState × StepFlow
  | s, [] => (s, .proceed)
  | s, shape :: shapes =>
    if shape.blocks then countRepeats limits ((s.setLastCall []).setStrikes .repeated 0) shapes
    else if shape.signature ≠ s.recovery.lastCall then
      countRepeats limits ((s.setLastCall shape.signature).setStrikes .repeated 1) shapes
    else strikeThen limits s .repeated [] false fun s => countRepeats limits s shapes

/-- `ToolCallsWithinLimits` -/
def toolCallsWithinLimits (limits : TurnLimits) (s : TurnState) (calls : List ResponseCall)
    (io : ResponseIo) : TurnState × StepFlow :=
  if calls = [] then (s, .proceed)
  else if 0 < limits.maxToolCalls ∧ limits.maxToolCalls < s.toolCount + calls.length then
    (s.failBudget ⟨.maxToolCalls, lit "tool call limit reached (" ++
      Json.decimalInt limits.maxToolCalls ++ lit ")"⟩, .endTurn)
  else countRepeats limits s io.shapes

/-! ### Tools -/

/-- `kEditFailures`: as many failed searches are kept. -/
def kEditFailures : Nat := 32

/-- The note about a search that failed twice. -/
def editNote : StepNote :=
  bracketed (lit "edit recovery advisory] The same exact search failed again on the same file " ++
    lit "revision, even if reads succeeded between attempts. No edits from the failed batch " ++
    lit "were written. Rebuild the edit from current numbered context; do not repeat the " ++
    lit "failed old text.")

/-- One result of `RunCalls`. -/
def recordOutcome (s : TurnState) (outcome : CallOutcome) : TurnState :=
  let s := { s with toolCount := s.toolCount + if outcome.executed then 1 else 0 }
  let s := s.push outcome.message .toolResult
  if outcome.recoveryKey = [] then s
  else
    let failures := s.recovery.editFailures
    let failures :=
      if (Assoc.lookup outcome.recoveryKey failures).isNone ∧ kEditFailures ≤ failures.length then
        Assoc.erase outcome.forgotten failures
      else failures
    let count := (Assoc.lookup outcome.recoveryKey failures).getD 0 + 1
    let s := s.recover
      { s.recovery with editFailures := Assoc.insert outcome.recoveryKey count failures }
    if count = 2 then s.pushStepNote editNote else s

/-- `RunCalls`, as far as the turn goes. -/
def runCalls (limits : TurnLimits) (s : TurnState) (outcomes : List CallOutcome) : TurnState :=
  let s := outcomes.foldl recordOutcome s
  if outcomes.any (·.ok) then s.setStrikes .failedTools 0
  else outcomes.foldl (fun s _ => (strike limits s .failedTools).1) s

/-- A lone poll that came back running and unchanged. -/
def quietPoll (polls : List ActivityPollResult) (exclusive : Bool) : Option ActivityPollResult :=
  match polls with
  | [poll] => if !exclusive || !poll.ok || poll.terminal || !poll.noChange then none else some poll
  | _ => none

/-- `HandleActivityPollResults` -/
def handleActivityPollResults (limits : TurnLimits) (s : TurnState)
    (polls : List ActivityPollResult) (exclusive : Bool) : TurnState × StepFlow :=
  let s := if polls.any (·.ok) then (s.setLastCall []).setStrikes .repeated 0 else s
  match quietPoll polls exclusive with
  | none => (if polls.isEmpty then s else s.setStrikes .quietPoll 0, .proceed)
  | some poll =>
    let s := if s.recovery.quietActivityId = poll.id then s else s.setStrikes .quietPoll 0
    strikeThen limits (s.recover { s.recovery with quietActivityId := poll.id }) .quietPoll
      (Json.decimalInt poll.id) true fun s => (s, .proceed)

/-- `StopForRepeatedRejections`, given those seen this round. -/
def stopForRepeatedRejections (seen : List Bytes) :
    TurnState → List RejectedCall → TurnState × StepFlow
  | s, [] => (s, .proceed)
  | s, rejection :: rejections =>
    if rejection.key ∈ seen then stopForRepeatedRejections seen s rejections
    else
      let rounds := (Assoc.lookup rejection.key s.recovery.rejectionRounds).getD 0 + 1
      let s := s.recover
        { s.recovery with
          rejectionRounds := Assoc.insert rejection.key rounds s.recovery.rejectionRounds }
      if rounds < kRejectedCallStopAfter then
        stopForRepeatedRejections (rejection.key :: seen) s rejections
      else
        (s.failBudget ⟨.repeatedCalls, lit "model repeated an equivalent rejected " ++
          rejection.tool ++ lit " call " ++ Json.decimal kRejectedCallStopAfter ++
          lit " times: " ++ rejection.message⟩, .endTurn)

/-- `ExecuteToolCalls` -/
def executeToolCalls (limits : TurnLimits) (s : TurnState) (calls : List ResponseCall)
    (io : ResponseIo) : TurnState × StepFlow :=
  let rejections := io.outcomes.filterMap (·.issue)
  let steered := (s.runCalls limits io.outcomes).applyQueuedSteering io.steering
  if io.interrupted then
    if steered.2 then (steered.1, .nextStep) else steered.1.interruptTurn
  else
    andThen (steered.1.handleActivityPollResults limits (io.outcomes.filterMap (·.poll))
      (calls.length = 1)) fun s =>
      andThen (s.stopForRepeatedRejections [] rejections) fun s =>
        andThen ((if rejections.isEmpty && s.recovery.strikes .failedTools = 0 then
            s.advise .repeated []
          else s).stopAt io.deadline) fun s => (s, .nextStep)

/-- `FinishWithProse` -/
def finishWithProse (s : TurnState) (io : ResponseIo) : TurnState × StepFlow :=
  let steered := s.applyQueuedSteering io.steering
  if steered.2 then (steered.1, .nextStep)
  else if io.interrupted then steered.1.interruptTurn
  else ({ steered.1 with complete := true, outcome := .complete }, .endTurn)

/-! ### A step -/

/-- `kProviderContinuationLimit` -/
def kProviderContinuationLimit : Nat := 8

/-- Calls that named no function. -/
def dropNameless (limits : TurnLimits) (s : TurnState) (response : ChatResult) :
    TurnState × StepFlow :=
  if response.namelessToolCalls = 0 then (s, .proceed)
  else
    strikeThen limits s .nameless [] true fun s =>
      (s, if response.toolCalls = [] then .nextStep else .proceed)

/-- What an empty answer is told. -/
def emptyAdvice (s : TurnState) : Bytes :=
  if 0 < s.toolCount then
    lit "Return the final answer from existing results. Do not repeat completed work."
  else lit "The previous reply arrived empty. Answer the request directly."

/-- The rest of a step, when its answer is whole and stopped by itself. -/
def takeAnswer (limits : TurnLimits) (s : TurnState) (response : ChatResult) (content : Bytes)
    (io : ResponseIo) : TurnState × StepFlow :=
  let calls := response.toolCalls
  if calls = [] ∧ (response.foreignMarkup || response.suppressed) then
    strikeThen limits s .markup [] true fun s => (s, .nextStep)
  else
    andThen (s.toolCallsWithinLimits limits calls io) fun s =>
      if calls = [] ∧ content = [] then
        strikeThen limits s .empty s.emptyAdvice true fun s => (s, .nextStep)
      else
        let s := s.pushAssistantMessage response content calls io
        if calls = [] then s.finishWithProse io else s.executeToolCalls limits calls io

/-- The text of an answer; `RecordModelResponse` puts the sources behind it. -/
def answerText (response : ChatResult) (io : ResponseIo) : Bytes :=
  if response.content = [] then [] else response.content ++ io.citations

/-- A provider's pause, which is continued a number of times. -/
def continuePause (s : TurnState) (response : ChatResult) (io : ResponseIo) :
    TurnState × StepFlow :=
  let s := { s with providerContinuations := s.providerContinuations + 1 }
  if kProviderContinuationLimit < s.providerContinuations then
    (s.failTurn (lit "provider continuation limit (8) reached"), .endTurn)
  else (s.pushAssistantMessage response (answerText response io) [] io, .nextStep)

/-- The rest of a step, when there is an answer; it never proceeds. -/
def respond (limits : TurnLimits) (s : TurnState) (response : ChatResult) (io : ResponseIo) :
    TurnState × StepFlow :=
  let content := answerText response io
  andThen (s.stopAt (io.tokens.or io.cost)) fun s =>
    if response.stopCause = .pause ∧ !response.replay.isEmpty then s.continuePause response io
    else
      andThen (s.handleResponseStop limits response content io) fun s =>
        andThen (s.dropNameless limits response) fun s =>
          s.takeAnswer limits response content io

end TurnState

/-- How a step ended: what there is then, how the turn goes on, and the
request it made. -/
structure StepOutcome where
  after : TurnState
  flow : StepFlow
  call : Option ModelCall

open TurnState in
/-- One round of the loop of `Turn`. -/
def turnStep (limits : TurnLimits) (attachment : Bool) (s : TurnState) (io : StepIo) :
    StepOutcome :=
  let prepared := s.prepareStep io.prepare
  if prepared.2 = .proceed then
    let asked := prepared.1.chat io.call
    let r := andThen (handleFailedResponse attachment asked.1 io.call.response io.failure)
      fun s => s.respond limits io.call.response io.response
    { after := r.1, flow := r.2, call := some asked.2 }
  else { after := prepared.1, flow := prepared.2, call := none }

/-! ### The loop -/

/-- A round of a run: the state it began in, and how it ended. -/
structure TurnEntry where
  before : TurnState
  io : StepIo
  outcome : StepOutcome

/-- A run of the loop: its rounds, the state in the end, and whether it ended
or the script did. -/
structure TurnRun where
  log : List TurnEntry
  last : TurnState
  ended : Bool

/-- The state the next round begins in. -/
def StepOutcome.next (outcome : StepOutcome) : TurnState :=
  if outcome.flow = .retryStep then outcome.after
  else { outcome.after with step := outcome.after.step + 1 }

/-- The loop of `Turn`, over what its rounds meet. -/
def turnLoop (limits : TurnLimits) (attachment : Bool) : TurnState → List StepIo → TurnRun
  | s, ios =>
    if limits.maxSteps ≤ 0 ∨ s.step < limits.maxSteps then
      match ios with
      | [] => { log := [], last := s, ended := false }
      | io :: ios =>
        let outcome := turnStep limits attachment s io
        if outcome.flow = .endTurn then
          { log := [⟨s, io, outcome⟩], last := outcome.after, ended := true }
        else
          let rest := turnLoop limits attachment outcome.next ios
          { rest with log := ⟨s, io, outcome⟩ :: rest.log }
    else { log := [], last := s, ended := true }

/-- The state a turn begins in. -/
def TurnState.start (conversation : Conversation) (capabilities : ProviderCapabilities) :
    TurnState :=
  { conversation, capabilities }

/-! ### The answer at a limit -/

/-- What `AnswerAtLimit` meets. -/
structure AnswerIo where
  stopped : Bool := false
  tokens : Option BudgetStop := none
  cost : Option BudgetStop := none
  call : CallIo
  response : ResponseIo := {}

/-- The stops that leave work nobody has been told about. -/
def TurnStopReason.answers (reason : TurnStopReason) : Bool :=
  reason = .maxSteps || reason = .maxToolCalls || reason = .repeatedCalls || reason = .turnDeadline

open TurnState in
/-- `AnswerAtLimit`, and the request it makes. -/
def answerAtLimit (limits : TurnLimits) (s : TurnState) (io : AnswerIo) :
    TurnState × Option ModelCall :=
  let s :=
    if s.reason = .none ∧ 0 < limits.maxSteps ∧ limits.maxSteps ≤ s.step then
      { s with
        lastError := lit "step limit (" ++ Json.decimalInt limits.maxSteps ++ lit ") reached"
        reason := .maxSteps }
    else s
  let checked := s.stopAt (io.tokens.or io.cost)
  if !s.reason.answers || io.stopped then (s, none)
  else if checked.2 ≠ .proceed then (checked.1, none)
  else
    let asked := checked.1.ask [] (lit "This turn stopped: " ++ s.lastError ++
      lit ". No further tool call will run. Answer now from what you have: what you found, " ++
      lit "and what is left undone.") io.call
    let response := io.call.response
    if response.interrupted ∨ response.error ≠ [] then (asked.1, some asked.2)
    else
      let recorded := asked.1.stopAt (io.response.tokens.or io.response.cost)
      if recorded.2 ≠ .proceed ∨ !response.proseOnly ∨ response.suppressed ∨
          response.incomplete ∨ response.stopCause ∉ [.none, .complete] then
        (recorded.1, some asked.2)
      else
        (recorded.1.pushAssistantMessage response (response.content ++ io.response.citations) []
          io.response, some asked.2)

/-- The requests of a run's rounds. -/
def stepCalls (log : List TurnEntry) : List ModelCall := log.filterMap (·.outcome.call)

/-- The requests of a turn. -/
def turnCalls (limits : TurnLimits) (run : TurnRun) (answer : AnswerIo) : List ModelCall :=
  stepCalls run.log ++ (answerAtLimit limits run.last answer).2.toList

end UAgent
