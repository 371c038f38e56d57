/-
UAgent/Api/RouteCapabilities.lean

What a route is taken to be able to do, and how a request it rejects switches
that off (src/api/capabilities.cc, Agent::DegradeAndRetry of
src/agent/request.cc).

Which capability a rejection is about is guessed from its text.  Whatever the
guess, it is one that was on (`rejectedRouteCapability_has`), so that a retry
leaves one less of them (`count_degradeAndRetry`).
-/
import UAgent.Api.ToolCalls
import UAgent.Core.Strings

namespace UAgent

open Bytes

/-! ### Answers -/

/-- A call of an answer. -/
structure ResponseCall where
  id : Bytes
  name : Bytes
  args : Bytes
deriving DecidableEq

/-- `ChatResult`, as far as a turn reads it. -/
structure ChatResult where
  content : Bytes := []
  reasoning : Bytes := []
  reasoningDetails : List Json := []
  toolCalls : List ResponseCall := []
  annotations : List Json := []
  replay : Json := .obj []
  usage : Json := .null
  httpStatus : Int := 0
  finishReason : Bytes := []
  stopCause : ResponseStopCause := .none
  incomplete : Bool := false
  error : Bytes := []
  remoteErrorType : Bytes := []
  remoteErrorCode : Bytes := []
  /-- `remote_error_kind` is `kContextLengthExceeded` -/
  contextLengthExceeded : Bool := false
  namelessToolCalls : Nat := 0
  interrupted : Bool := false
  suppressed : Bool := false
  semanticProgress : Bool := false
  /-- what `ContainsForeignToolCallMarkup` finds in the content -/
  foreignMarkup : Bool := false

/-- `ProseOnlyResponse` -/
def ChatResult.proseOnly (result : ChatResult) : Bool :=
  result.content ≠ [] && result.toolCalls = [] && !result.foreignMarkup

/-- `SafeContextRecovery` -/
def ChatResult.safeContextRecovery (result : ChatResult) : Bool :=
  result.contextLengthExceeded && !result.interrupted && !result.semanticProgress &&
    result.content = [] && result.reasoning = [] && result.reasoningDetails.isEmpty &&
    result.toolCalls = [] && result.annotations.isEmpty && result.usage.isEmpty

/-! ### Capabilities -/

/-- `ProviderCapabilities`, as far as a rejection switches them off. -/
structure ProviderCapabilities where
  parallelTools : Bool := true
  streamUsageOption : Bool := true
  reasoningSummary : Bool := false
  imageInput : Bool := true
  fileInput : Bool := true
  audioInput : Bool := true
  videoInput : Bool := true
deriving DecidableEq

/-- `RejectedCapability` -/
inductive RejectedCapability where
  | none
  | imageInput
  | fileInput
  | audioInput
  | videoInput
  | parallelTools
  | streamUsage
  | reasoningSummary
deriving DecidableEq

namespace ProviderCapabilities

/-- Whether a capability is on. -/
def has (capabilities : ProviderCapabilities) : RejectedCapability → Bool
  | .none => false
  | .imageInput => capabilities.imageInput
  | .fileInput => capabilities.fileInput
  | .audioInput => capabilities.audioInput
  | .videoInput => capabilities.videoInput
  | .parallelTools => capabilities.parallelTools
  | .streamUsage => capabilities.streamUsageOption
  | .reasoningSummary => capabilities.reasoningSummary

/-- The capabilities with one switched off. -/
def without (capabilities : ProviderCapabilities) : RejectedCapability → ProviderCapabilities
  | .none => capabilities
  | .imageInput => { capabilities with imageInput := false }
  | .fileInput => { capabilities with fileInput := false }
  | .audioInput => { capabilities with audioInput := false }
  | .videoInput => { capabilities with videoInput := false }
  | .parallelTools => { capabilities with parallelTools := false }
  | .streamUsage => { capabilities with streamUsageOption := false }
  | .reasoningSummary => { capabilities with reasoningSummary := false }

/-- How many of them are on. -/
def count (capabilities : ProviderCapabilities) : Nat :=
  capabilities.parallelTools.toNat + capabilities.streamUsageOption.toNat +
    capabilities.reasoningSummary.toNat + capabilities.imageInput.toNat +
    capabilities.fileInput.toNat + capabilities.audioInput.toNat + capabilities.videoInput.toNat

theorem count_le (capabilities : ProviderCapabilities) : capabilities.count ≤ 7 := by
  have hle : ∀ b : Bool, b.toNat ≤ 1 := Bool.toNat_le
  have h₁ := hle capabilities.parallelTools
  have h₂ := hle capabilities.streamUsageOption
  have h₃ := hle capabilities.reasoningSummary
  have h₄ := hle capabilities.imageInput
  have h₅ := hle capabilities.fileInput
  have h₆ := hle capabilities.audioInput
  have h₇ := hle capabilities.videoInput
  unfold count
  omega

/-- Switching off what is on leaves one less. -/
theorem count_without {capabilities : ProviderCapabilities} {capability : RejectedCapability}
    (h : capabilities.has capability = true) :
    (capabilities.without capability).count + 1 = capabilities.count := by
  have htrue : true.toNat = 1 := rfl
  have hfalse : false.toNat = 0 := rfl
  cases capability with
  | none => exact absurd h Bool.false_ne_true
  | imageInput => simp only [has] at h; simp only [without, count, h, htrue, hfalse]; omega
  | fileInput => simp only [has] at h; simp only [without, count, h, htrue, hfalse]; omega
  | audioInput => simp only [has] at h; simp only [without, count, h, htrue, hfalse]; omega
  | videoInput => simp only [has] at h; simp only [without, count, h, htrue, hfalse]
  | parallelTools => simp only [has] at h; simp only [without, count, h, htrue, hfalse]; omega
  | streamUsage => simp only [has] at h; simp only [without, count, h, htrue, hfalse]; omega
  | reasoningSummary =>
    simp only [has] at h; simp only [without, count, h, htrue, hfalse]; omega

end ProviderCapabilities

/-! ### Rejections -/

/-- Whether a text holds another. -/
def mentions (text part : Bytes) : Bool := (find part text).isSome

/-- `unsupported_modality` of `RejectedRouteCapability`. -/
def unsupportedModality (structured message noun : Bytes) : Bool :=
  let evidence := structured ++ lit " " ++ message
  let explicitRejection :=
    mentions structured (lit "unsupported") || mentions evidence (lit "does not support") ||
      mentions evidence (lit "not supported") || mentions evidence (lit "unsupported input")
  let invalidFile :=
    mentions evidence (lit "size") || mentions evidence (lit "too large") ||
      mentions evidence (lit "corrupt") || mentions message (lit "invalid image") ||
      mentions message (lit "invalid file") || mentions message (lit "invalid pdf") ||
      mentions evidence (lit "format") || mentions evidence (lit "dimension")
  explicitRejection && !invalidFile && mentions evidence noun

/-- `RejectedRouteCapability` -/
def rejectedRouteCapability (result : ChatResult) (capabilities : ProviderCapabilities) :
    RejectedCapability :=
  let structured := asciiLower (result.remoteErrorType ++ lit " " ++ result.remoteErrorCode)
  let message := asciiLower result.error
  let evidence := structured ++ lit " " ++ message
  let unsupported := unsupportedModality structured message
  if result.httpStatus ≠ 400 ∧ result.httpStatus ≠ 422 then .none
  else if capabilities.imageInput && unsupported (lit "image") then .imageInput
  else if capabilities.fileInput &&
      (unsupported (lit "file") || unsupported (lit "document") || unsupported (lit "pdf")) then
    .fileInput
  else if capabilities.audioInput && unsupported (lit "audio") then .audioInput
  else if capabilities.videoInput && unsupported (lit "video") then .videoInput
  else if result.httpStatus ≠ 400 then .none
  else if capabilities.reasoningSummary &&
      ((mentions evidence (lit "reasoning.summary") || mentions evidence (lit "'reasoning'") ||
          mentions evidence (lit "\"reasoning\"") || mentions evidence (lit "thinking.display")) &&
        (mentions evidence (lit "unsupported") || mentions evidence (lit "not supported") ||
          mentions evidence (lit "unknown"))) then .reasoningSummary
  else if capabilities.parallelTools &&
      (mentions evidence (lit "parallel_tool_calls") ||
        mentions evidence (lit "parallel tool calls")) then .parallelTools
  else if capabilities.streamUsageOption && mentions evidence (lit "stream_options") then
    .streamUsage
  else .none

/-- `DegradeAndRetry`: the capabilities to try again with. -/
def degradeAndRetry (result : ChatResult) (capabilities : ProviderCapabilities) :
    Option ProviderCapabilities :=
  match rejectedRouteCapability result capabilities with
  | .none => none
  | .reasoningSummary =>
    -- Not once anything has come of the request.
    if !result.semanticProgress && result.content = [] && result.reasoning = [] &&
        result.toolCalls = [] && result.usage.isEmpty then
      some (capabilities.without .reasoningSummary)
    else none
  | rejected => some (capabilities.without rejected)

/-- What is taken to be rejected was on. -/
theorem rejectedRouteCapability_has {result : ChatResult} {capabilities : ProviderCapabilities}
    (h : rejectedRouteCapability result capabilities ≠ .none) :
    capabilities.has (rejectedRouteCapability result capabilities) = true := by
  unfold rejectedRouteCapability at h ⊢
  dsimp only at h ⊢
  split_ifs at h ⊢ with _ himage hfile haudio hvideo _ hsummary hparallel hstream
  all_goals first | exact absurd rfl h | skip
  · exact (Bool.and_eq_true_iff.mp himage).1
  · exact (Bool.and_eq_true_iff.mp hfile).1
  · exact (Bool.and_eq_true_iff.mp haudio).1
  · exact (Bool.and_eq_true_iff.mp hvideo).1
  · exact (Bool.and_eq_true_iff.mp hsummary).1
  · exact (Bool.and_eq_true_iff.mp hparallel).1
  · exact (Bool.and_eq_true_iff.mp hstream).1

theorem degradeAndRetry_eq {result : ChatResult} {capabilities next : ProviderCapabilities}
    (h : degradeAndRetry result capabilities = some next) :
    rejectedRouteCapability result capabilities ≠ .none ∧
      next = capabilities.without (rejectedRouteCapability result capabilities) := by
  unfold degradeAndRetry at h
  cases hrejected : rejectedRouteCapability result capabilities with
  | none => rw [hrejected] at h; exact absurd h.symm (Option.some_ne_none next)
  | reasoningSummary =>
    rw [hrejected] at h
    dsimp only at h
    split_ifs at h
    exact ⟨RejectedCapability.noConfusion, (Option.some.inj h).symm⟩
  | _ =>
    rw [hrejected] at h
    exact ⟨RejectedCapability.noConfusion, (Option.some.inj h).symm⟩

/-- A retry has one capability less. -/
theorem count_degradeAndRetry {result : ChatResult} {capabilities next : ProviderCapabilities}
    (h : degradeAndRetry result capabilities = some next) :
    next.count + 1 = capabilities.count := by
  obtain ⟨hne, rfl⟩ := degradeAndRetry_eq h
  exact ProviderCapabilities.count_without (rejectedRouteCapability_has hne)

end UAgent
