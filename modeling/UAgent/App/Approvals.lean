/-
UAgent/App/Approvals.lean

Approval policy (src/app/approvals.cc): whether a call may run, decided in
one cascade over the mode, the remembered rules, the sandbox, the automatic
review and the person.

Everything the decision reads from outside stands in `ApprovalSetting` and
`ApprovalInput`: the modes and the sandbox, and what the reviewer and the
person would say if they were asked.  A person's prompts are recorded with
their answers.

Main result: `makeApprover_grounds`, what must hold of a call that is not
refused.
-/
import UAgent.Agent.Tool

namespace UAgent

open Bytes

/-! ### What a decision reads -/

inductive ApprovalMode where
  | ask
  | auto
  | yolo
  | plan
deriving DecidableEq

/-- The session and the sandbox around it. -/
structure ApprovalSetting (ω : Type*) where
  mode : ApprovalMode
  /-- the sandbox is enforced; its policy -/
  enforced : Bool
  readOnly : Bool
  writableRoots : List Bytes := []
  withheld : List Bytes := []
  readable : ω → Bytes → Bool := fun _ _ => true
  /-- `options.AgentRole()` -/
  agentRole : Json := .obj []
  planFile : Bytes := []
  /-- `CanonicalCwd()` -/
  root : Bytes
  /-- `CanonicalAccessPath` -/
  access : ω → Bytes → Bytes
  /-- `InteractiveApprovalAvailable()` -/
  interactive : Bool

inductive AutoPermissionDecision where
  | allow
  | ask
  | deny
deriving DecidableEq

/-- What a review made of an action. -/
structure AutoPermissionReview where
  decision : AutoPermissionDecision := .ask
  reasons : List Json := []
  note : Bytes := []
  error : Bytes := []
deriving DecidableEq

/-- What one approval meets outside. -/
structure ApprovalInput where
  /-- what `ReviewPermission` says if it is asked -/
  review : AutoPermissionReview := {}
  /-- what `ReadInteraction` reads if a person is asked -/
  answer : Bytes := []
  eof : Bool := false
  /-- the rules file, when it can be read; why it cannot be saved, if so -/
  rulesUsable : Bool := true
  saveError : Option Bytes := none

/-- A rule of the rules file. -/
structure StoredRule where
  root : Bytes
  rule : PermissionRule
deriving DecidableEq

/-- What the review made of each action in the turn being run. -/
structure ReviewMemo where
  turn : Int := -1
  reviews : List (Bytes × AutoPermissionReview) := []

/-- What approvals leave behind. -/
structure ApprovalState where
  sessionRules : List PermissionRule := []
  stored : List StoredRule := []
  memo : ReviewMemo := {}
  /-- guidance queued for the agent -/
  steering : List Bytes := []

/-- A question put to a person, and the answer read. -/
structure AskedPerson where
  tool : Bytes
  preview : Bytes
  mandatory : Bool
  reason : Bytes
  risks : List Json
  answer : Bytes
  eof : Bool
deriving DecidableEq

/-! ### A person's answer -/

/-- `ReadChoiceLine`: the answer and whether it was cancelled. -/
def readChoiceLine (input : ApprovalInput) : Bytes × Bool :=
  let line := trim input.answer
  let cancelled := input.eof || line.contains 0x1b
  (if cancelled then [] else line, cancelled)

/-- `Confirm`: silence and EOF both decline. -/
def confirm (input : ApprovalInput) : Bool :=
  let (answer, cancelled) := readChoiceLine input
  !cancelled && !input.eof && (answer = lit "y" || answer = lit "Y" || answer = lit "yes")

inductive ApprovalAnswer where
  | once
  | session
  | repository
  | deny
  | guidance
deriving DecidableEq

/-- `kApprovalChoices`: every spelling of an answer. -/
def approvalChoices : List (ApprovalAnswer × List Bytes) :=
  [(.once, [lit "y", lit "yes"]), (.session, [lit "s", lit "session"]),
    (.repository, [lit "a", lit "always", lit "repository"]), (.deny, [lit "n", lit "no"]),
    (.guidance, [])]

/-- `ParseApprovalAnswer`. -/
def parseApprovalAnswer (answer : Bytes) : ApprovalAnswer :=
  let lowered := asciiLower answer
  if lowered = [] then .guidance
  else ((approvalChoices.find? fun choice => lowered ∈ choice.2).map Prod.fst).getD .guidance

/-- What a person answered an ordinary approval with. -/
def personAnswer (input : ApprovalInput) : ApprovalAnswer :=
  let (answer, cancelled) := readChoiceLine input
  if cancelled || input.eof then .deny else parseApprovalAnswer (trim answer)

/-- The answers that allow the call. -/
def ApprovalAnswer.allows : ApprovalAnswer → Bool
  | .once | .session | .repository => true
  | .deny | .guidance => false

/-! ### The policies -/

section Policies

variable {ω : Type*} (setting : ApprovalSetting ω) (world : ω)

/-- `WrapsCommands`: run and scratch. -/
def wrapsCommands (tool : Tool ω) : Bool := tool.name = lit "run" || tool.name = lit "scratch"

/-- `WithinWorkArea`: the folder, and the roots sandboxed commands may write. -/
def withinWorkArea (path workspace : Bytes) : Bool :=
  let canonical := setting.access world path
  let within := fun roots : List Bytes =>
    roots.any fun root => pathWithin canonical (setting.access world root)
  pathWithin canonical workspace ||
    setting.enforced && within setting.writableRoots && !within setting.withheld

/-- `PathOutsideFolder`. -/
def pathOutsideFolder (arguments : Json) : Bool :=
  let path := jsonValueStr arguments (lit "path") []
  path ≠ [] && !withinWorkArea setting world path setting.root

/-- `UnreadablePath`. -/
def unreadablePath (path : Bytes) : Bool :=
  path ≠ [] && setting.enforced && !setting.readable world (setting.access world path)

/-- `ReviewedByPolicy`: an agent in Auto that may edit acts inside its folder
without review while the sandbox holds it there. -/
def reviewedByPolicy (tool : Tool ω) (arguments : Json) : Bool :=
  !setting.agentRole.isEmpty && jsonValueStr setting.agentRole (lit "edits") [] ≠ lit "none" &&
    setting.mode = .auto && setting.enforced &&
      (wrapsCommands tool || tool.needsApproval.any fun needs => !needs world arguments)

/-- The readonly sandbox holds a command. -/
def heldReadOnly (tool : Tool ω) (mandatory : Bool) : Bool :=
  tool.capabilities &&& kExecute ≠ 0 && !mandatory && setting.enforced && setting.readOnly

/-- A file tool's call on the plan. -/
def onPlanFile (tool : Tool ω) (arguments : Json) : Bool :=
  setting.planFile ≠ [] && tool.capabilities ≠ 0 &&
    tool.capabilities &&& ~~~(kInspect ||| kMutate) = 0 &&
    setting.access world (jsonValueStr arguments (lit "path") []) =
      setting.access world setting.planFile

/-- `PlanModeAllows`. -/
def planModeAllows (tool : Tool ω) (arguments : Json) (mandatory : Bool) : Bool :=
  heldReadOnly setting tool mandatory || onPlanFile setting world tool arguments

/-- Whether a command's prefix rule holds: only where the sandbox holds it. -/
def confinedCall (tool : Tool ω) : Bool := !(wrapsCommands tool && !setting.enforced)

/-- `ApprovalRisks`. -/
def approvalRisks (tool : Tool ω) (arguments : Json) : List Json :=
  let has := fun capability : UInt32 => decide (tool.capabilities &&& capability ≠ 0)
  let candidates : List (Bool × String × String) :=
    [(has kExecute, "runs", "runs commands"),
      (!has kExecute && toolMutates world tool arguments, "writes", "makes changes"),
      (has kExternal, "network", "uses the network"),
      (pathOutsideFolder setting world arguments, "outside", "outside this folder")]
  (candidates.filter Prod.fst).map fun risk =>
    .ofFields [(lit "id", .str (lit risk.2.1)), (lit "label", .str (lit risk.2.2))]

end Policies

/-! ### The cascade -/

/-- The outcome of an approval. -/
structure Verdict where
  granted : Bool := true
  refusal : Bytes := lit "this action was not approved"

/-- `ReviewAutomatically`: the automatic review's verdict, or nothing when it
asks for a person to decide, with the memo and what it saw. -/
def reviewAutomatically (interactive : Bool) (input : ApprovalInput) (memo : ReviewMemo)
    (toolName payload : Bytes) (turn : Int) :
    Option Verdict × ReviewMemo × AutoPermissionReview :=
  let key := toolName ++ lit ":" ++ hashHex payload
  -- A new turn starts afresh.
  let memo : ReviewMemo := if memo.turn ≠ turn then { turn := turn } else memo
  let memoized := Assoc.lookup key memo.reviews
  let decision := memoized.getD input.review
  let memo : ReviewMemo :=
    if memoized.isNone && decision.error = [] then
      { memo with reviews := (key, decision) :: memo.reviews }
    else memo
  let ask : Bool := decision.decision = .ask
  -- An undecided review with nobody to ask is a denial.
  if ask ∧ interactive then (none, memo, decision)
  else
    let refusal :=
      if ask then
        lit "the automatic permission review could not decide this action and nobody is here to ask"
      else lit "the automatic permission review refused this action"
    let refusal :=
      if decision.error = [] then refusal else refusal ++ lit " (" ++ decision.error ++ lit ")"
    (some { granted := decision.decision = .allow, refusal := refusal }, memo, decision)

section Approver

variable [DoubleText] {ω : Type*} (setting : ApprovalSetting ω) (world : ω)
  (input : ApprovalInput)

/-- What a call is approved as. -/
def approvalPayload (tool : Tool ω) (arguments : Json) : Bytes :=
  match tool.approvalPreview with
  | some preview => preview world arguments
  | none =>
    let target := tool.target world arguments
    if target = [] then arguments.dump else target

/-- Why a person is needed. -/
def mandatoryReason (tool : Tool ω) (arguments : Json) : Bytes :=
  let reason := (tool.mandatoryReason.map fun reason => reason world arguments).getD []
  if reason ≠ [] then reason
  else if unreadablePath setting world (jsonValueStr arguments (lit "path") []) then
    lit "reads your folders outside this folder; sandbox.read opens one"
  else lit "changes µAgent's own configuration"

/-- `AskPerson`: puts the call to a person, and remembers an answer they ask
to keep. -/
def askPerson (tool : Tool ω) (arguments : Json) (payload : Bytes) (rule : PermissionRule)
    (mandatory : Bool) (review : Option AutoPermissionReview) (state : ApprovalState) :
    Verdict × ApprovalState × List AskedPerson :=
  let reason := mandatoryReason setting world tool arguments
  let risks := approvalRisks setting world tool arguments ++
    (review.map AutoPermissionReview.reasons).getD []
  let asked : AskedPerson :=
    { tool := tool.name, preview := payload, mandatory := mandatory
      reason := if mandatory then reason else [], risks := risks, answer := input.answer
      eof := input.eof }
  if mandatory && !setting.interactive then
    ({ granted := false
       refusal := lit "this action needs a person's approval (" ++ reason ++
         lit ") and nobody is here to give it" }, state, [])
  else if mandatory then
    ({ granted := confirm input
       refusal := lit "this action was not approved (" ++ reason ++ lit ")" }, state, [asked])
  else
    let chosen := personAnswer input
    let state :=
      match chosen with
      | .session => { state with sessionRules := state.sessionRules ++ [rule] }
      | .repository =>
        if !input.rulesUsable || input.saveError.isSome || ⟨setting.root, rule⟩ ∈ state.stored then
          state
        else { state with stored := state.stored ++ [⟨setting.root, rule⟩] }
      | .guidance =>
        let answer := trim (readChoiceLine input).1
        if answer = [] then state else { state with steering := state.steering ++ [answer] }
      | .once | .deny => state
    ({ granted := chosen.allows }, state, [asked])

/-- Whether a held rule covers the call. -/
def coversCall (tool : Tool ω) (arguments : Json) (rule : PermissionRule) : Bool :=
  ruleCovers (setting.access world) rule (tool.forRule world) arguments setting.root
    (confinedCall setting tool)

/-- `RepositoryRuleAllows`: the repository's rule that covers the call. -/
def repositoryRule (tool : Tool ω) (arguments : Json) (state : ApprovalState) :
    Option PermissionRule :=
  if input.rulesUsable then
    (state.stored.find? fun held =>
      held.root = setting.root && coversCall setting world tool arguments held.rule).map (·.rule)
  else none

/-- `MakeApprover`: the refusal, empty for a call that may run. -/
def makeApprover (turn : Int) (tool : Tool ω) (arguments : Json) (state : ApprovalState) :
    Bytes × ApprovalState × List AskedPerson :=
  let mandatory : Bool := requiredApproval world tool arguments = .mandatoryHuman
  let confined := confinedCall setting tool
  let held := state.sessionRules.find? (coversCall setting world tool arguments)
  let sessionRule := if mandatory then none else held
  let repositoryRule := if mandatory ∨ sessionRule.isSome then none
    else repositoryRule setting world input tool arguments state
  let byRule := sessionRule.or repositoryRule
  let rule := byRule.getD
    (suggestRule (setting.access world) (tool.forRule world) arguments setting.root confined)
  let planning : Bool := setting.mode = .plan
  let planned := planning && planModeAllows setting world tool arguments mandatory
  let automatic : Bool := !mandatory &&
    (setting.mode = .yolo || byRule.isSome || reviewedByPolicy setting world tool arguments ||
      planned)
  let payload := approvalPayload world tool arguments
  let contained := !pathOutsideFolder setting world arguments && confined
  -- In plan mode anything else that changes something is refused before
  -- anyone is asked; a read that asks, asks.
  if planning && !planned && toolMutates world tool arguments then
    (lit "plan mode is read-only; write the plan to " ++ setting.planFile, state, [])
  else if automatic then ([], state, [])
  else
    let (reviewed, memo, review) :=
      if !mandatory && setting.mode = .auto && contained then
        let (verdict, memo, review) := reviewAutomatically setting.interactive input state.memo
          tool.name payload turn
        (verdict, memo, some review)
      else (none, state.memo, none)
    let state := { state with memo := memo }
    match reviewed with
    | some verdict => (if verdict.granted then [] else verdict.refusal, state, [])
    | none =>
      let (verdict, state, asked) :=
        askPerson setting world input tool arguments payload rule mandatory review state
      (if verdict.granted then [] else verdict.refusal, state, asked)

end Approver

/-! ### What an allowed call rests on -/

section Grounds

variable [DoubleText] {ω : Type*}

/-- The automatic review allowed what the call shows: one made for it, or one
of the turn for the same tool and payload. -/
def ReviewAllows (world : ω) (input : ApprovalInput) (turn : Int) (tool : Tool ω)
    (arguments : Json) (state : ApprovalState) : Prop :=
  let payload := approvalPayload world tool arguments
  input.review.decision = .allow ∨
    state.memo.turn = turn ∧ ∃ review,
      Assoc.lookup (tool.name ++ lit ":" ++ hashHex payload) state.memo.reviews = some review ∧
      review.decision = .allow

/-- A person was asked for the call, and this is the answer read. -/
structure AskedFor (world : ω) (input : ApprovalInput) (tool : Tool ω) (arguments : Json)
    (mandatory : Bool) (question : AskedPerson) : Prop where
  hasTool : question.tool = tool.name
  hasPreview : question.preview = approvalPayload world tool arguments
  isMandatory : question.mandatory = mandatory
  hasAnswer : question.answer = input.answer
  hasEof : question.eof = input.eof

/-- What may grant a call that no person must decide. -/
inductive Grounds (setting : ApprovalSetting ω) (world : ω) (input : ApprovalInput) (turn : Int)
    (tool : Tool ω) (arguments : Json) (state : ApprovalState) (asked : List AskedPerson) : Prop
  | yolo (h : setting.mode = .yolo)
  | sessionRule (rule : PermissionRule) (h : rule ∈ state.sessionRules)
      (covers : coversCall setting world tool arguments rule = true)
  | repositoryRule (rule : PermissionRule) (h : ⟨setting.root, rule⟩ ∈ state.stored)
      (covers : coversCall setting world tool arguments rule = true)
  | agentPolicy (h : reviewedByPolicy setting world tool arguments = true)
  | review (mode : setting.mode = .auto)
      (contained : pathOutsideFolder setting world arguments = false ∧
        confinedCall setting tool = true)
      (h : ReviewAllows world input turn tool arguments state)
  | plan (mode : setting.mode = .plan)
      (h : planModeAllows setting world tool arguments false = true)
  | person (question : AskedPerson) (h : question ∈ asked)
      (asks : AskedFor world input tool arguments false question)
      (allows : (personAnswer input).allows = true)

variable {setting : ApprovalSetting ω} {world : ω} {input : ApprovalInput} {turn : Int}
  {tool : Tool ω} {arguments : Json} {state : ApprovalState}

omit [DoubleText] in
theorem readChoiceLine_fst (h : (readChoiceLine input).2 = false) :
    (readChoiceLine input).1 = trim input.answer := by
  change (input.eof || (trim input.answer).contains 0x1b) = false at h
  change (if (input.eof || (trim input.answer).contains 0x1b) = true then [] else _) = _
  rw [h, if_neg Bool.false_ne_true]

omit [DoubleText] in
/-- A person confirms with y, Y or yes. -/
theorem confirm_answer (h : confirm input = true) :
    input.eof = false ∧ trim input.answer ∈ [lit "y", lit "Y", lit "yes"] := by
  simp only [confirm, Bool.and_eq_true, Bool.or_eq_true, Bool.not_eq_true', decide_eq_true_eq] at h
  obtain ⟨⟨hcancelled, heof⟩, hanswer⟩ := h
  rw [readChoiceLine_fst hcancelled] at hanswer
  refine ⟨heof, ?_⟩
  rcases hanswer with (h | h) | h <;> simp [h]

/-- A verdict of the review: a refusal has a text, an allowance a review. -/
theorem reviewAutomatically_verdict {memo memo' : ReviewMemo}
    {review : AutoPermissionReview} {verdict : Verdict} {payload : Bytes}
    (hmemo : memo = state.memo) (hpayload : payload = approvalPayload world tool arguments)
    (h : reviewAutomatically setting.interactive input memo tool.name payload turn =
      (some verdict, memo', review)) :
    verdict.refusal ≠ [] ∧
      (verdict.granted = true → ReviewAllows world input turn tool arguments state) := by
  subst hmemo hpayload
  unfold reviewAutomatically at h
  extract_lets key memo memoized decision memo' ask refusal refusal' at h
  split at h
  · cases h
  · obtain ⟨rfl, -, -⟩ : _ = verdict ∧ _ ∧ _ := by
      rw [Prod.mk.injEq, Prod.mk.injEq, Option.some.injEq] at h
      exact h
    constructor
    · have hrefusal : refusal ≠ [] := by
        simp only [refusal]
        split_ifs <;> decide
      simp only [refusal']
      split_ifs
      · exact hrefusal
      · simp [hrefusal]
    · intro hgranted
      have hallow : decision.decision = .allow := by simpa using hgranted
      cases hlookup : memoized with
      | none =>
        simp only [decision, hlookup, Option.getD_none] at hallow
        exact .inl hallow
      | some found =>
        simp only [decision, hlookup, Option.getD_some] at hallow
        simp only [memoized, memo] at hlookup
        split_ifs at hlookup with hturn
        · cases hlookup
        · exact .inr ⟨not_not.mp hturn, found, hlookup, hallow⟩

/-- What a person decided: a refusal has a text; a mandatory call needs a
confirmed question, another one an allowing answer. -/
theorem askPerson_verdict {rule : PermissionRule} {mandatory : Bool}
    {review : Option AutoPermissionReview} :
    let decided := askPerson setting world input tool arguments
      (approvalPayload world tool arguments) rule mandatory review state
    decided.1.refusal ≠ [] ∧ (decided.1.granted = true → ∃ question ∈ decided.2.2,
      AskedFor world input tool arguments mandatory question ∧
        (mandatory = true → confirm input = true) ∧
        (mandatory = false → (personAnswer input).allows = true)) := by
  intro decided
  simp only [decided, askPerson]
  split
  · exact ⟨by simp [show lit "this action needs a person's approval (" ≠ [] by decide],
      fun h => absurd h Bool.false_ne_true⟩
  · split
    · next hmandatory =>
      refine ⟨by simp [show lit "this action was not approved (" ≠ [] by decide], fun h => ?_⟩
      exact ⟨_, List.mem_singleton.mpr rfl, ⟨rfl, rfl, rfl, rfl, rfl⟩, fun _ => h,
        fun hnot => absurd (hnot.symm.trans hmandatory) Bool.false_ne_true⟩
    · next hmandatory =>
      refine ⟨show lit "this action was not approved" ≠ [] by decide, fun h => ?_⟩
      exact ⟨_, List.mem_singleton.mpr rfl, ⟨rfl, rfl, rfl, rfl, rfl⟩,
        fun hyes => absurd hyes hmandatory, fun _ => h⟩

/-- A rule that granted a call covers it. -/
theorem sessionRule_grounds {rule : PermissionRule} {asked : List AskedPerson}
    (h : state.sessionRules.find? (coversCall setting world tool arguments) = some rule) :
    Grounds setting world input turn tool arguments state asked :=
  .sessionRule rule (List.mem_of_find?_eq_some h) (List.find?_some h)

theorem repositoryRule_grounds {rule : PermissionRule} {asked : List AskedPerson}
    (h : repositoryRule setting world input tool arguments state = some rule) :
    Grounds setting world input turn tool arguments state asked := by
  rw [repositoryRule] at h
  split at h
  · obtain ⟨held, hheld, rfl⟩ := Option.map_eq_some_iff.mp h
    have hcovers := List.find?_some hheld
    rw [Bool.and_eq_true, decide_eq_true_eq] at hcovers
    refine .repositoryRule held.rule ?_ hcovers.2
    rw [← hcovers.1]
    exact List.mem_of_find?_eq_some hheld
  · cases h

/-- **What an approved call rests on.**  A mandatory call was confirmed by a
person, any other has its grounds; and in plan mode a call that changes
something is one of plan mode's exceptions. -/
theorem makeApprover_grounds {state' : ApprovalState} {asked : List AskedPerson}
    (h : makeApprover setting world input turn tool arguments state = ([], state', asked)) :
    let mandatory : Bool := requiredApproval world tool arguments = .mandatoryHuman
    (mandatory = true → ∃ question ∈ asked,
      AskedFor world input tool arguments true question ∧ confirm input = true) ∧
      (mandatory = false → Grounds setting world input turn tool arguments state asked) ∧
      (setting.mode = .plan → toolMutates world tool arguments = true →
        planModeAllows setting world tool arguments mandatory = true) := by
  intro mandatory
  unfold makeApprover at h
  extract_lets confined held sessionRule repository byRule rule planning planned automatic
    payload contained at h
  split at h
  · have hne : lit "plan mode is read-only; write the plan to " ≠ [] := by decide
    exact absurd (List.append_eq_nil_iff.mp (congrArg Prod.fst h)).1 hne
  · next hplan =>
    have hexcept : setting.mode = .plan → toolMutates world tool arguments = true →
        planModeAllows setting world tool arguments mandatory = true := by
      intro hmode hmutates
      have hplanning : planning = true := decide_eq_true hmode
      rw [hplanning, hmutates, Bool.true_and, Bool.and_true, Bool.not_eq_true,
        Bool.not_eq_false'] at hplan
      exact (Bool.and_eq_true_iff.mp hplan).2
    split at h
    · next hautomatic =>
      -- Granted without asking.
      rw [Bool.and_eq_true, Bool.not_eq_true'] at hautomatic
      obtain ⟨hmandatory, hwhy⟩ := hautomatic
      refine ⟨fun hyes => absurd (hyes.symm.trans hmandatory) (by decide), fun _ => ?_, hexcept⟩
      rw [Bool.or_eq_true, Bool.or_eq_true, Bool.or_eq_true, decide_eq_true_eq] at hwhy
      rcases hwhy with ((hyolo | hrule) | hpolicy) | hplanned
      · exact .yolo hyolo
      · obtain ⟨granted, hgranted⟩ := Option.isSome_iff_exists.mp hrule
        rcases Option.or_eq_some_iff.mp hgranted with hsession | ⟨-, hrepository⟩
        · simp only [sessionRule, hmandatory, Bool.false_eq_true, if_false] at hsession
          exact sessionRule_grounds hsession
        · simp only [repository] at hrepository
          split at hrepository
          · cases hrepository
          · exact repositoryRule_grounds hrepository
      · exact .agentPolicy hpolicy
      · rw [Bool.and_eq_true, decide_eq_true_eq, hmandatory] at hplanned
        exact .plan hplanned.1 hplanned.2
    · -- Reviewed, or put to a person.
      split at h
      next reviewed memo review hreviewed =>
      extract_lets state'' at h
      split at h
      · next verdict =>
        split at hreviewed
        · next hreview =>
          rw [Bool.and_eq_true, Bool.and_eq_true, Bool.not_eq_true', decide_eq_true_eq,
            Bool.and_eq_true, Bool.not_eq_true'] at hreview
          obtain ⟨⟨hmandatory, hauto⟩, hcontained⟩ := hreview
          rcases hauto' : reviewAutomatically setting.interactive input state.memo tool.name payload
            turn with ⟨decided, memo', review'⟩
          rw [hauto', Prod.mk.injEq] at hreviewed
          obtain ⟨rfl, -⟩ := hreviewed
          obtain ⟨hrefusal, hallows⟩ := reviewAutomatically_verdict rfl rfl hauto'
          refine ⟨fun hyes => absurd (hyes.symm.trans hmandatory) (by decide), fun _ => ?_,
            hexcept⟩
          cases hgranted : verdict.granted with
          | true => exact .review hauto hcontained (hallows hgranted)
          | false =>
            rw [hgranted, if_neg Bool.false_ne_true] at h
            exact absurd (congrArg Prod.fst h) hrefusal
        · cases hreviewed
      · obtain ⟨hrefusal, hasked⟩ := @askPerson_verdict _ _ setting world input tool arguments
          state'' rule mandatory review
        rw [Prod.mk.injEq, Prod.mk.injEq] at h
        obtain ⟨hverdict, -, rfl⟩ := h
        cases hgranted : (askPerson setting world input tool arguments payload rule mandatory review
          state'').1.granted with
        | true =>
          obtain ⟨question, hquestion, hasks, hconfirm, hallows⟩ := hasked hgranted
          refine ⟨fun hyes => ⟨question, hquestion, hyes ▸ hasks, hconfirm hyes⟩, fun hno => ?_,
            hexcept⟩
          exact .person question hquestion (hno ▸ hasks) (hallows hno)
        | false =>
          rw [hgranted, if_neg Bool.false_ne_true] at hverdict
          exact absurd hverdict hrefusal

end Grounds

end UAgent
