/-
UAgent/Agent/Tool.lean

Tools as the agent loop sees them (src/include/tools/tool.h,
src/tools/tool.cc): which tools a conversation offers, and the authority a
call needs.

What a tool decides about a call may depend on the disk, so each of its
predicates takes the state of the world `ω` at that moment.  Its own checks
are fields of the tool, as in the source, where a missing function is none.
-/
import UAgent.App.Permissions

namespace UAgent

open Bytes

/-! ### Tools -/

/-- How a call must be authorised. -/
inductive ApprovalClass where
  | none
  | yoloEligibleMutation
  | mandatoryHuman
deriving DecidableEq

/-- The order of the classes. -/
def ApprovalClass.rank : ApprovalClass → Nat
  | .none => 0
  | .yoloEligibleMutation => 1
  | .mandatoryHuman => 2

/-- `Capability` of each `ToolCapability`. -/
def kInspect : UInt32 := 1
def kExecute : UInt32 := 2
def kMutate : UInt32 := 4
def kDelegate : UInt32 := 8
def kExternal : UInt32 := 16
def kAllToolCapabilities : UInt32 := kInspect ||| kExecute ||| kMutate ||| kDelegate ||| kExternal

/-- What is wrong with a call's arguments. -/
structure ToolArgumentIssue where
  code : Bytes
  message : Bytes
  field : Bytes := []
deriving DecidableEq

/-- `ArgumentIssue`. -/
def argumentIssue (code message : Bytes) : ToolArgumentIssue := { code, message }

/-- A tool, over the states `ω` of the world its checks read. -/
structure Tool (ω : Type*) where
  name : Bytes
  category : Bytes := []
  skill : Bytes := []
  provider : Bytes := []
  mutating : Bool := false
  mutates : Option (ω → Json → Bool) := none
  needsApproval : Option (ω → Json → Bool) := none
  approvalClass : Option (ω → Json → ApprovalClass) := none
  approvalPreview : Option (ω → Json → Bytes) := none
  approvalSubject : Option (ω → Json → Json) := none
  mandatoryReason : Option (ω → Json → Bytes) := none
  validate : Option (ω → Json → Option ToolArgumentIssue) := none
  /-- `CanonicalizeToolArguments` -/
  canonicalize : ω → Json → Json := fun _ arguments => arguments
  /-- `FindToolArgumentIssue`: the check against the tool's own schema -/
  findArgumentIssue : Json → Option ToolArgumentIssue := fun _ => none
  /-- the target of `ToolHeadline` -/
  target : ω → Json → Bytes := fun _ _ => []
  capabilities : UInt32 := kAllToolCapabilities
  maxCallsPerTurn : Int := -1

variable {ω : Type*}

/-- `FindTool`. -/
def findTool (tools : List (Tool ω)) (name : Bytes) : Option (Tool ω) :=
  tools.find? (·.name = name)

/-- `ToolMutates`. -/
def toolMutates (world : ω) (tool : Tool ω) (arguments : Json) : Bool :=
  tool.mutating || tool.mutates.any fun mutates => mutates world arguments

/-- `tool.needs_approval && tool.needs_approval(arguments)`. -/
def wantsApproval (world : ω) (tool : Tool ω) (arguments : Json) : Bool :=
  tool.needsApproval.any fun needs => needs world arguments

/-- `RequiredApproval`: a tool may escalate specific arguments; nothing can
de-escalate below what the tool itself declares. -/
def requiredApproval (world : ω) (tool : Tool ω) (arguments : Json) : ApprovalClass :=
  if tool.approvalClass.any fun classify => classify world arguments = .mandatoryHuman then
    .mandatoryHuman
  else if toolMutates world tool arguments || wantsApproval world tool arguments then
    .yoloEligibleMutation
  else .none

/-- The parts of a tool a remembered rule depends on. -/
def Tool.forRule (world : ω) (tool : Tool ω) : RuleTool where
  name := tool.name
  provider := tool.provider
  approvalSubject := tool.approvalSubject.map fun subject => subject world

/-! ### The tools a conversation offers -/

/-- `ToolCategory`. -/
def toolCategory (tool : Tool ω) : Bytes :=
  if tool.category ≠ [] then tool.category
  else if lit "mcp:" <+: tool.provider then lit "mcp"
  else if tool.name = lit "web_search" ∨ tool.name = lit "web_fetch" then lit "web"
  else if tool.name = lit "memory" ∨ tool.name = lit "skill" then lit "memory"
  else if tool.name = lit "run" ∨ tool.name = lit "scratch" ∨ tool.name = lit "activity" then
    lit "execute"
  else lit "workspace"

/-- `ProfileEnabled`. -/
def profileEnabled (profile : Bytes) (tool : Tool ω) : Bool :=
  let category := toolCategory tool
  if tool.skill ≠ [] then false
  else if profile = lit "default" then true
  else if profile = lit "coding" then category ≠ lit "web" && category ≠ lit "collaborate"
  else if profile = lit "research" then
    category ∈ [lit "workspace", lit "web", lit "collaborate", lit "memory", lit "system"] ||
      tool.name = lit "activity"
  else
    category = lit "system" ||
      tool.name ∈ [lit "read_path", lit "grep", lit "run", lit "activity"]

/-- A conversation's soft filter over the tools. -/
structure ToolSelection where
  profile : Bytes := lit "default"
  only : Option (List Bytes) := none
  overrides : List (Bytes × Bool) := []

/-- `ToolSelection::Enabled`. -/
def ToolSelection.enabled (selection : ToolSelection) (tool : Tool ω) : Bool :=
  if selection.only.any fun only => tool.name ∉ only then false
  else
    match Assoc.lookup tool.name selection.overrides with
    | some active => active
    | none => profileEnabled selection.profile tool

end UAgent
