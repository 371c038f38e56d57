/-
UAgent/Agent/ToolLoop.lean

A batch of tool calls (src/agent/tool_loop.cc, src/agent/dispatch.cc): every
call is prepared, validated and approved, before the first one runs, and
what it reaches is decided again when it runs.

Between the two the calls before it have run, so the world a call is entered
in is arbitrary: nothing ties it to the one the call was prepared in.

Main result: `runCalls_authorized`.
-/
import UAgent.App.Approvals

namespace UAgent

open Bytes

/-! ### Preparing a call -/

/-- A call as the model sent it.  `args` is what its text parses as; a text
that is no JSON is null, on which every lookup takes its fallback. -/
structure ToolCall where
  id : Bytes := []
  name : Bytes
  args : Json
  /-- what the model sent when it was not a JSON object -/
  malformed : Bytes := []

inductive ToolErrorCode where
  | invalidArguments
  | notFound
  | unavailable
  | limitExceeded
  | permissionDenied
deriving DecidableEq

/-- Why a call did not run. -/
structure ToolRejection where
  code : ToolErrorCode
  message : Bytes
  status : Bytes
  issue : Option ToolArgumentIssue := none
deriving DecidableEq

/-- A call with what was decided about it before any call of its batch ran. -/
structure CallTask (ω : Type*) where
  tool : Option (Tool ω) := none
  args : Json
  required : ApprovalClass := .none
  /-- its own check wanted approval then -/
  outside : Bool := false
  /-- what its approval covered, as the tool said then -/
  approved : Json := .null
  rejection : Option ToolRejection := none
  execute : Bool := false

/-- What a turn carries from call to call: how often each tool was called,
and what approvals leave behind. -/
structure LoopState where
  toolCounts : Bytes → Int := fun _ => 0
  approvals : ApprovalState := {}

/-- What preparing one call meets outside. -/
structure PrepareInput (ω : Type*) where
  world : ω
  setting : ApprovalSetting ω
  approval : ApprovalInput := {}

section Prepare

variable {ω : Type*}

/-- Decimal digits of a count. -/
def countText (n : Int) : Bytes := lit (toString n)

/-- The checks of a call before approval: why it is refused, or its tool. -/
def validateCall (world : ω) (tools : List (Tool ω)) (selection : ToolSelection)
    (toolCounts : Bytes → Int) (call : ToolCall) (arguments : Json) :
    Except ToolRejection (Tool ω) :=
  if call.malformed ≠ [] then
    .error
      { code := .invalidArguments
        message := lit "nothing ran: the arguments were not one complete JSON object. " ++
          lit "Send the call again with every argument inside a single JSON object. Received " ++
          countText call.malformed.length ++ lit " characters, starting: " ++
          utf8Trunc call.malformed 200
        status := lit "malformed_arguments"
        issue := some (argumentIssue (lit "arguments.malformed")
          (lit "malformed tool arguments (not valid JSON)")) }
  else
    match findTool tools call.name with
    | none =>
      .error
        { code := .notFound
          message := lit "unknown tool " ++ call.name
          status := lit "unknown_tool"
          issue := some (argumentIssue (lit "tool.unknown") (lit "unknown tool " ++ call.name)) }
    | some tool =>
      if !selection.enabled tool then
        .error
          { code := .unavailable
            message := lit "tool is inactive for this conversation: " ++ call.name ++
              (if tool.skill = [] then [] else lit "; open skill " ++ tool.skill ++ lit " first")
            status := lit "inactive_tool"
            issue := some (argumentIssue (lit "tool.inactive")
              (lit "inactive tool " ++ call.name)) }
      else
        match tool.findArgumentIssue arguments with
        | some issue =>
          .error
            { code := .invalidArguments
              message := lit "invalid tool argument: " ++ issue.message
              status := lit "invalid_argument"
              issue := some issue }
        | none =>
          match tool.validate.bind fun validate => validate world arguments with
          | some issue =>
            .error
              { code := .invalidArguments
                message := issue.message
                status := lit "rejected"
                issue := some issue }
          | none =>
            if tool.maxCallsPerTurn ≥ 0 ∧ toolCounts call.name ≥ tool.maxCallsPerTurn then
              let message := call.name ++ lit " reached its per-turn call limit (" ++
                countText tool.maxCallsPerTurn ++
                lit "); continue from the results you have — do not reimplement it with run"
              .error
                { code := .limitExceeded
                  message := message
                  status := lit "call_limit"
                  issue := some (argumentIssue (lit "tool.call_limit") message) }
            else .ok tool

variable [DoubleText]

/-- `Agent::PrepareCall`: validates one call and asks for approval.  A call
that may run leaves with `execute` set; any other already has its result. -/
def prepareCall (tools : List (Tool ω)) (selection : ToolSelection) (turn : Int)
    (input : PrepareInput ω) (state : LoopState) (call : ToolCall) :
    CallTask ω × LoopState × List AskedPerson :=
  let world := input.world
  let found := findTool tools call.name
  let arguments := (found.map fun tool => tool.canonicalize world call.args).getD call.args
  match validateCall world tools selection state.toolCounts call arguments with
  | .error rejection =>
    ({ tool := found, args := arguments, rejection := some rejection }, state, [])
  | .ok tool =>
    let required := requiredApproval world tool arguments
    let task : CallTask ω :=
      { tool := some tool
        args := arguments
        required := required
        outside := wantsApproval world tool arguments
        approved := if required = .none then .null
          else (tool.approvalSubject.map fun subject => subject world arguments).getD .null }
    let (refused, approvals, asked) :=
      if required = .none then ([], state.approvals, [])
      else makeApprover input.setting world input.approval turn tool arguments state.approvals
    if refused = [] then
      ({ task with execute := true },
        { toolCounts := Function.update state.toolCounts call.name (state.toolCounts call.name + 1)
          approvals := approvals }, asked)
    else
      let denied : ToolRejection :=
        { code := .permissionDenied
          message := refused ++ lit "; ask for guidance or try a different approach"
          status := lit "denied" }
      ({ task with rejection := some denied }, { state with approvals := approvals }, asked)

/-- A call of a batch as it was prepared. -/
structure Prepared (ω : Type*) where
  call : ToolCall
  input : PrepareInput ω
  /-- the state before it -/
  before : LoopState
  task : CallTask ω
  asked : List AskedPerson

/-- The calls of a batch, prepared one after another. -/
def prepareCalls (tools : List (Tool ω)) (selection : ToolSelection) (turn : Int) :
    LoopState → List (ToolCall × PrepareInput ω) → List (Prepared ω) × LoopState
  | state, [] => ([], state)
  | state, (call, input) :: calls =>
    let (task, next, asked) := prepareCall tools selection turn input state call
    let (prepared, last) := prepareCalls tools selection turn next calls
    (⟨call, input, state, task, asked⟩ :: prepared, last)

end Prepare

/-! ### Running a call -/

/-- The moment a worker takes a call up: the world then, and whether the turn
was steered or aborted. -/
structure ToolEntry (ω : Type*) where
  world : ω
  stopped : Bool := false

/-- How a call that was prepared ends. -/
inductive Execution where
  /-- it was not to run, or no worker took it up -/
  | notStarted
  | cancelled
  /-- what it reaches changed after it was approved -/
  | changed (text : Bytes)
  /-- its tool's `run` is entered with its arguments and its approval -/
  | entered (arguments approved : Json)
deriving DecidableEq

section Execute

variable {ω : Type*}

/-- `ExecuteCall`, up to the tool's own `run`.  Decided again now that the
calls before it in the batch have run: one of them can have made its path a
link to something only a person may touch. -/
def executeCall (entry : ToolEntry ω) (task : CallTask ω) : Execution :=
  match task.tool with
  | none => .notStarted
  | some tool =>
    if entry.stopped then .cancelled
    else if (requiredApproval entry.world tool task.args).rank > task.required.rank ∨
        (!task.outside && wantsApproval entry.world tool task.args) then
      .changed (lit "what this call reaches changed after it was approved; ask for it again")
    else .entered task.args task.approved

/-- A call's end: those that are not to run, and those no worker takes up, do
not start. -/
def takeUp (entry : Option (ToolEntry ω)) (task : CallTask ω) : Execution :=
  match entry with
  | some entry => if task.execute then executeCall entry task else .notStarted
  | none => .notStarted

/-- A prepared call with its end. -/
structure CallRun (ω : Type*) where
  prepared : Prepared ω
  entry : Option (ToolEntry ω)
  execution : Execution

variable [DoubleText]

/-- `Agent::RunCalls`: all calls are prepared, then those that may run are
taken up, by one worker or several; `entries` says when, if at all. -/
def runCalls (tools : List (Tool ω)) (selection : ToolSelection) (turn : Int) (state : LoopState)
    (calls : List (ToolCall × PrepareInput ω)) (entries : List (Option (ToolEntry ω))) :
    List (CallRun ω) :=
  let prepared := (prepareCalls tools selection turn state calls).1
  (prepared.zip entries).map fun (p, entry) => ⟨p, entry, takeUp entry p.task⟩

end Execute

/-! ### What an entered call rests on -/

section Authorized

variable {ω : Type*}

/-- What the checks before approval have found. -/
structure ValidCall (world : ω) (tools : List (Tool ω)) (selection : ToolSelection)
    (toolCounts : Bytes → Int) (call : ToolCall) (arguments : Json) (tool : Tool ω) : Prop where
  wellFormed : call.malformed = []
  found : findTool tools call.name = some tool
  enabled : selection.enabled tool = true
  schema : tool.findArgumentIssue arguments = none
  semantic : ∀ validate, tool.validate = some validate → validate world arguments = none
  limit : tool.maxCallsPerTurn < 0 ∨ toolCounts call.name < tool.maxCallsPerTurn

theorem validateCall_ok {world : ω} {tools : List (Tool ω)} {selection : ToolSelection}
    {toolCounts : Bytes → Int} {call : ToolCall} {arguments : Json} {tool : Tool ω}
    (h : validateCall world tools selection toolCounts call arguments = .ok tool) :
    ValidCall world tools selection toolCounts call arguments tool := by
  rw [validateCall] at h
  split at h
  · cases h
  · next hmalformed =>
    split at h
    · cases h
    · next hfound =>
      split at h
      · cases h
      · next henabled =>
        split at h
        · cases h
        · next hschema =>
          split at h
          · cases h
          · next hvalidate =>
            split at h
            · cases h
            · next hlimit =>
              obtain rfl := Except.ok.inj h
              refine ⟨not_not.mp hmalformed, hfound, by simpa using henabled, hschema,
                fun validate hv => ?_, ?_⟩
              · rwa [hv] at hvalidate
              · rw [not_and_or, not_le, not_le] at hlimit
                exact hlimit

variable [DoubleText]

/-- **An authorised call.**  It passed every check when it was prepared; its
class when it is entered is at most the one it was prepared with; and what it
was prepared with was granted. -/
structure Authorized (tools : List (Tool ω)) (selection : ToolSelection) (turn : Int)
    (p : Prepared ω) (entry : ToolEntry ω) (arguments : Json) (tool : Tool ω) : Prop
    extends ValidCall p.input.world tools selection p.before.toolCounts p.call arguments tool where
  class_le : (requiredApproval entry.world tool arguments).rank ≤
    (requiredApproval p.input.world tool arguments).rank
  /-- a person was asked, and answered y or yes -/
  mandatory : requiredApproval p.input.world tool arguments = .mandatoryHuman ∨
      requiredApproval entry.world tool arguments = .mandatoryHuman →
    ∃ question ∈ p.asked, AskedFor p.input.world p.input.approval tool arguments true question ∧
      question.eof = false ∧ trim question.answer ∈ [lit "y", lit "Y", lit "yes"]
  ordinary : requiredApproval p.input.world tool arguments = .yoloEligibleMutation →
    Grounds p.input.setting p.input.world p.input.approval turn tool arguments
      p.before.approvals p.asked
  plan : p.input.setting.mode = .plan → toolMutates p.input.world tool arguments = true →
    heldReadOnly p.input.setting tool
        (requiredApproval p.input.world tool arguments = .mandatoryHuman) = true ∨
      onPlanFile p.input.setting p.input.world tool arguments = true

/-- A prepared call is what preparing it gave. -/
theorem prepareCalls_mem {tools : List (Tool ω)} {selection : ToolSelection} {turn : Int}
    {state : LoopState} {calls : List (ToolCall × PrepareInput ω)} {p : Prepared ω}
    (h : p ∈ (prepareCalls tools selection turn state calls).1) :
    ∃ next, prepareCall tools selection turn p.input p.before p.call = (p.task, next, p.asked) := by
  induction calls generalizing state with
  | nil => cases h
  | cons call calls ih =>
    rcases List.mem_cons.mp h with rfl | h
    · exact ⟨_, rfl⟩
    · exact ih h

/-- What holds of a call that leaves its preparation to be executed. -/
theorem prepareCall_execute {tools : List (Tool ω)} {selection : ToolSelection} {turn : Int}
    {input : PrepareInput ω} {state next : LoopState} {call : ToolCall} {task : CallTask ω}
    {asked : List AskedPerson}
    (h : prepareCall tools selection turn input state call = (task, next, asked))
    (hexecute : task.execute = true) :
    ∃ tool, task.tool = some tool ∧
      ValidCall input.world tools selection state.toolCounts call task.args tool ∧
      task.required = requiredApproval input.world tool task.args ∧
      task.outside = wantsApproval input.world tool task.args ∧
      (task.required = .none ∨
        ∃ approvals, makeApprover input.setting input.world input.approval turn tool task.args
          state.approvals = ([], approvals, asked)) ∧
      next.toolCounts =
        Function.update state.toolCounts call.name (state.toolCounts call.name + 1) := by
  unfold prepareCall at h
  extract_lets world found arguments at h
  split at h
  · obtain ⟨rfl, -⟩ := Prod.mk.inj h
    cases hexecute
  · next tool hvalid =>
    extract_lets required at h
    split at h
    next refused approvals asked' hdecided =>
    split at h
    · next hrefused =>
      obtain ⟨rfl, hrest⟩ := Prod.mk.inj h
      obtain ⟨rfl, rfl⟩ := Prod.mk.inj hrest
      refine ⟨tool, rfl, validateCall_ok hvalid, rfl, rfl, ?_, rfl⟩
      split at hdecided
      · exact .inl ‹_›
      · rw [hrefused] at hdecided
        exact .inr ⟨approvals, hdecided⟩
    · obtain ⟨rfl, -⟩ := Prod.mk.inj h
      cases hexecute

omit [DoubleText] in
/-- A call whose class is none changes nothing that asks. -/
theorem not_mutates_of_none {world : ω} {tool : Tool ω} {arguments : Json}
    (h : requiredApproval world tool arguments = .none) :
    toolMutates world tool arguments = false := by
  rw [requiredApproval] at h
  split at h
  · cases h
  · split at h
    · cases h
    · next hneither =>
      rw [Bool.not_eq_true, Bool.or_eq_false_iff] at hneither
      exact hneither.1

omit [DoubleText] in
theorem rank_mandatory {c : ApprovalClass} (h : ApprovalClass.mandatoryHuman.rank ≤ c.rank) :
    c = .mandatoryHuman := by
  cases c with
  | none => exact absurd h (by decide)
  | yoloEligibleMutation => exact absurd h (by decide)
  | mandatoryHuman => rfl

omit [DoubleText] in
/-- The check at entry. -/
theorem executeCall_entered {entry : ToolEntry ω} {task : CallTask ω} {arguments approved : Json}
    (h : executeCall entry task = .entered arguments approved) :
    ∃ tool, task.tool = some tool ∧ arguments = task.args ∧
      (requiredApproval entry.world tool task.args).rank ≤ task.required.rank := by
  rw [executeCall] at h
  split at h
  · cases h
  · next tool htool =>
    split at h
    · cases h
    · split at h
      · cases h
      · next hsame =>
        obtain ⟨rfl, -⟩ := Execution.entered.inj h
        rw [not_or, gt_iff_lt, not_lt] at hsame
        exact ⟨tool, htool, rfl, hsame.1⟩

/-- **An entered call is authorised**, whatever the world is when it runs. -/
theorem authorized_of_entered {tools : List (Tool ω)} {selection : ToolSelection} {turn : Int}
    {p : Prepared ω} {next : LoopState} {entry : ToolEntry ω} {arguments approved : Json}
    (hp : prepareCall tools selection turn p.input p.before p.call = (p.task, next, p.asked))
    (hexecute : p.task.execute = true)
    (h : executeCall entry p.task = .entered arguments approved) :
    ∃ tool, Authorized tools selection turn p entry arguments tool := by
  obtain ⟨tool, htool, hvalid, hrequired, -, happroved, -⟩ := prepareCall_execute hp hexecute
  obtain ⟨tool', htool', rfl, hrank⟩ := executeCall_entered h
  obtain rfl : tool = tool' := Option.some.inj (htool.symm.trans htool')
  rw [hrequired] at hrank happroved
  refine ⟨tool, hvalid, hrank, fun hclass => ?_, fun hclass => ?_, fun hmode hmutates => ?_⟩
  · have hmandatory : requiredApproval p.input.world tool p.task.args = .mandatoryHuman :=
      hclass.elim id fun hentry => rank_mandatory (hentry ▸ hrank)
    obtain ⟨approvals, hgranted⟩ := happroved.resolve_left (by rw [hmandatory]; decide)
    obtain ⟨question, hquestion, hasks, hconfirm⟩ :=
      (makeApprover_grounds hgranted).1 (decide_eq_true hmandatory)
    have hanswer := confirm_answer hconfirm
    rw [← hasks.hasEof, ← hasks.hasAnswer] at hanswer
    exact ⟨question, hquestion, hasks, hanswer⟩
  · obtain ⟨approvals, hgranted⟩ := happroved.resolve_left (by rw [hclass]; decide)
    exact (makeApprover_grounds hgranted).2.1 (decide_eq_false (by rw [hclass]; decide))
  · have hsome : requiredApproval p.input.world tool p.task.args ≠ .none := fun hnone => by
      rw [not_mutates_of_none hnone] at hmutates
      exact Bool.false_ne_true hmutates
    obtain ⟨approvals, hgranted⟩ := happroved.resolve_left hsome
    exact Bool.or_eq_true_iff.mp ((makeApprover_grounds hgranted).2.2 hmode hmutates)

/-! ### The limit of a turn -/

/-- Whether a call's `run` was entered. -/
def CallRun.entered (run : CallRun ω) : Bool :=
  match run.execution with
  | .entered _ _ => true
  | _ => false

/-- An accepted call counts, another one does not. -/
theorem prepareCall_counts {tools : List (Tool ω)} {selection : ToolSelection} {turn : Int}
    {input : PrepareInput ω} {state next : LoopState} {call : ToolCall} {task : CallTask ω}
    {asked : List AskedPerson}
    (h : prepareCall tools selection turn input state call = (task, next, asked)) (name : Bytes) :
    next.toolCounts name =
      state.toolCounts name + if task.execute && call.name = name then 1 else 0 := by
  cases hexecute : task.execute with
  | true =>
    obtain ⟨-, -, -, -, -, -, hcounts⟩ := prepareCall_execute h hexecute
    rw [hcounts, Function.update_apply]
    by_cases hname : name = call.name
    · simp [hname]
    · simp [hname, Ne.symm hname]
  | false =>
    unfold prepareCall at h
    extract_lets world found arguments at h
    rw [Bool.false_and, if_neg Bool.false_ne_true, add_zero]
    split at h
    · obtain ⟨-, hrest⟩ := Prod.mk.inj h
      rw [← (Prod.mk.inj hrest).1]
    · extract_lets at h
      split at h
      split at h
      · obtain ⟨rfl, -⟩ := Prod.mk.inj h
        cases hexecute
      · obtain ⟨-, hrest⟩ := Prod.mk.inj h
        rw [← (Prod.mk.inj hrest).1]

/-- The calls a batch accepts stay within the limit of their tool. -/
theorem prepareCalls_limit {tools : List (Tool ω)} {selection : ToolSelection} {turn : Int}
    {state : LoopState} {calls : List (ToolCall × PrepareInput ω)} {name : Bytes} {tool : Tool ω}
    (hfound : findTool tools name = some tool) (hlimit : 0 ≤ tool.maxCallsPerTurn)
    (hstate : state.toolCounts name ≤ tool.maxCallsPerTurn) :
    state.toolCounts name + (prepareCalls tools selection turn state calls).1.countP
      (fun p => p.task.execute && p.call.name = name) ≤ tool.maxCallsPerTurn := by
  induction calls generalizing state with
  | nil => simpa [prepareCalls] using hstate
  | cons call calls ih =>
    obtain ⟨call, input⟩ := call
    rcases hprepared : prepareCall tools selection turn input state call with ⟨task, next, asked⟩
    have hcounts := prepareCall_counts hprepared name
    have hnext : next.toolCounts name ≤ tool.maxCallsPerTurn := by
      rw [hcounts]
      split_ifs with haccepted
      · rw [Bool.and_eq_true, decide_eq_true_eq] at haccepted
        obtain ⟨tool', -, hvalid, -⟩ := prepareCall_execute hprepared haccepted.1
        rw [← haccepted.2] at hfound ⊢
        obtain rfl : tool' = tool := Option.some.inj (hvalid.found.symm.trans hfound)
        have := hvalid.limit
        omega
      · rwa [add_zero]
    have hrest := ih hnext
    rw [prepareCalls, hprepared]
    dsimp only
    rw [List.countP_cons]
    dsimp only
    split_ifs at hcounts ⊢ <;> omega

omit [DoubleText] in
/-- A call that is entered was to be executed. -/
theorem takeUp_entered {entry : Option (ToolEntry ω)} {task : CallTask ω} {arguments approved : Json}
    (h : takeUp entry task = .entered arguments approved) :
    task.execute = true ∧ ∃ moment, entry = some moment ∧
      executeCall moment task = .entered arguments approved := by
  unfold takeUp at h
  split at h
  · split at h
    · exact ⟨‹_›, _, rfl, h⟩
    · cases h
  · cases h

theorem countP_entered_le {tools : List (Tool ω)} {selection : ToolSelection} {turn : Int}
    {state : LoopState} {calls : List (ToolCall × PrepareInput ω)}
    {entries : List (Option (ToolEntry ω))} (name : Bytes) :
    (runCalls tools selection turn state calls entries).countP
        (fun run => run.entered && run.prepared.call.name = name) ≤
      (prepareCalls tools selection turn state calls).1.countP
        (fun p => p.task.execute && p.call.name = name) := by
  rw [runCalls]
  generalize (prepareCalls tools selection turn state calls).1 = prepared
  induction prepared generalizing entries with
  | nil => rfl
  | cons p prepared ih =>
    cases entries with
    | nil => exact Nat.zero_le _
    | cons entry entries =>
      rw [List.zip_cons_cons, List.map_cons, List.countP_cons, List.countP_cons]
      refine Nat.add_le_add ih ?_
      dsimp only
      split_ifs with hentered haccepted
      · exact le_refl 1
      · rw [Bool.and_eq_true] at hentered haccepted
        refine absurd ⟨?_, hentered.2⟩ haccepted
        have hrun := hentered.1
        rw [CallRun.entered] at hrun
        split at hrun
        · next htaken => exact (takeUp_entered htaken).1
        · cases hrun
      · exact Nat.zero_le _
      · exact le_refl 0

end Authorized

/-! ### A link made in between -/

/-- A tool that writes a file; the world says whether its path leads to the
agent's own configuration. -/
def writeTool : Tool Bool where
  name := lit "write_path"
  mutating := true
  approvalClass := some fun link _ => if link then .mandatoryHuman else .none
  capabilities := kMutate
  target _ arguments := jsonValueStr arguments (lit "path") []

/-- A call of it, prepared in a world, with a person's answer. -/
def writeCall (link : Bool) (answer : Bytes) : ToolCall × PrepareInput Bool :=
  ({ name := lit "write_path", args := .obj [(lit "path", .str (lit "a"))] },
    { world := link
      setting :=
        { mode := .yolo, enforced := false, readOnly := false, root := lit "/w"
          access := fun _ path => path, interactive := true }
      approval := { answer := answer } })

end UAgent
