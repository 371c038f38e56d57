/-
UAgent/Agent/TurnSteps.lean

What one round of a turn's loop leaves as it was (src/agent/turn.cc).

`Kept` is what every function of the loop keeps: the step count, what was
switched off stays off, and notes are only ever added behind the others.  The
functions that follow an answer never ask for the step again (`Calm`), so a
retry comes from compaction or from a failed request, and each of them
switches something off.
-/
import UAgent.Agent.TurnLoop

namespace UAgent

open Bytes

namespace TurnState

/-- What every function of the loop keeps. -/
structure Kept (s s' : TurnState) : Prop where
  step : s'.step = s.step
  midturn : s'.midturnCompactionEnabled = true → s.midturnCompactionEnabled = true
  attempted : s.contextOverflowRecoveryAttempted = true →
    s'.contextOverflowRecoveryAttempted = true
  count : s'.capabilities.count ≤ s.capabilities.count
  notes : ∃ more, s'.note = s.note ++ more ∧ s'.pushed = s.pushed ++ more

/-- Nothing of it was touched. -/
theorem Kept.of_eq {s s' : TurnState} (hstep : s'.step = s.step)
    (hmidturn : s'.midturnCompactionEnabled = s.midturnCompactionEnabled)
    (hattempted : s'.contextOverflowRecoveryAttempted = s.contextOverflowRecoveryAttempted)
    (hcapabilities : s'.capabilities = s.capabilities) (hnote : s'.note = s.note)
    (hpushed : s'.pushed = s.pushed) : Kept s s' where
  step := hstep
  midturn h := hmidturn ▸ h
  attempted h := hattempted.trans h
  count := le_of_eq (congrArg _ hcapabilities)
  notes := ⟨[], by rw [hnote, List.append_nil], by rw [hpushed, List.append_nil]⟩

theorem Kept.refl (s : TurnState) : Kept s s := .of_eq rfl rfl rfl rfl rfl rfl

theorem Kept.trans {s s' s'' : TurnState} (h : Kept s s') (h' : Kept s' s'') : Kept s s'' where
  step := h'.step.trans h.step
  midturn hon := h.midturn (h'.midturn hon)
  attempted hon := h'.attempted (h.attempted hon)
  count := h'.count.trans h.count
  notes := by
    obtain ⟨more, hnote, hpushed⟩ := h.notes
    obtain ⟨more', hnote', hpushed'⟩ := h'.notes
    exact ⟨more ++ more', by rw [hnote', hnote, List.append_assoc],
      by rw [hpushed', hpushed, List.append_assoc]⟩

theorem kept_foldl {α : Type*} {f : TurnState → α → TurnState} (h : ∀ s a, Kept s (f s a))
    (s : TurnState) (as : List α) : Kept s (as.foldl f s) := by
  induction as generalizing s with
  | nil => exact .refl s
  | cons a as ih => exact (h s a).trans (ih (f s a))

variable {limits : TurnLimits} {s : TurnState}

/-! ### Small steps -/

theorem kept_push (s : TurnState) (message : Json) (kind : MessageKind) :
    Kept s (s.push message kind) := .of_eq rfl rfl rfl rfl rfl rfl

theorem kept_failTurn (s : TurnState) (message : Bytes) : Kept s (s.failTurn message) :=
  .of_eq rfl rfl rfl rfl rfl rfl

theorem kept_failBudget (s : TurnState) (stop : BudgetStop) : Kept s (s.failBudget stop) :=
  .of_eq rfl rfl rfl rfl rfl rfl

theorem kept_recover (s : TurnState) (recovery : Recovery) : Kept s (s.recover recovery) :=
  .of_eq rfl rfl rfl rfl rfl rfl

theorem kept_setStrikes (s : TurnState) (fault : Fault) (strikes : Nat) :
    Kept s (s.setStrikes fault strikes) := kept_recover s _

theorem kept_clearRepeats (s : TurnState) (call : Bytes) (strikes : Nat) :
    Kept s ((s.setLastCall call).setStrikes .repeated strikes) :=
  (kept_recover s _).trans (kept_setStrikes _ _ _)

theorem kept_pushStepNote (s : TurnState) (note : StepNote) : Kept s (s.pushStepNote note) where
  step := rfl
  midturn h := h
  attempted h := h
  count := le_rfl
  notes := ⟨[note], rfl, rfl⟩

theorem kept_advise (s : TurnState) (fault : Fault) (about : Bytes) :
    Kept s (s.advise fault about) := by
  refine kept_foldl (fun s advice => ?_) s _
  split_ifs
  · exact kept_pushStepNote s _
  · exact .refl s

theorem kept_strike (limits : TurnLimits) (s : TurnState) (fault : Fault) (about : Bytes)
    (advises : Bool) : Kept s (strike limits s fault about advises).1 := by
  have hcount := kept_setStrikes s fault (s.recovery.strikes fault + 1)
  unfold strike
  dsimp only
  split_ifs
  · exact hcount.trans (kept_failTurn _ _)
  · exact hcount.trans (kept_failBudget _ _)
  · exact hcount.trans (kept_advise _ fault about)
  · exact hcount

theorem kept_pushSteered (s : TurnState) (message : SteeredMessage) :
    Kept s (s.pushSteered message) :=
  (kept_foldl (fun s _ => kept_push s _ _) s message.skills).trans (kept_push _ _ _)

theorem kept_applyQueuedSteering (s : TurnState) (queued : List SteeredMessage) :
    Kept s (s.applyQueuedSteering queued).1 := by
  have hpushed : Kept s ((queued.foldl pushSteered s).recover {}) :=
    (kept_foldl kept_pushSteered s queued).trans (kept_recover _ _)
  unfold applyQueuedSteering
  dsimp only
  split_ifs
  · exact .refl s
  · refine hpushed.trans (.trans ?_ (kept_pushStepNote _ _))
    exact .of_eq rfl rfl rfl rfl rfl rfl
  · exact hpushed

/-- Whether anything was queued is what it answers. -/
theorem applyQueuedSteering_snd (s : TurnState) (queued : List SteeredMessage) :
    (s.applyQueuedSteering queued).2 = !queued.isEmpty := by
  unfold applyQueuedSteering
  cases hempty : queued.isEmpty with
  | true => rfl
  | false =>
    rw [if_neg Bool.false_ne_true]
    dsimp only
    split_ifs <;> rfl

/-! ### Stages -/

/-- A stage that keeps what the loop keeps and does not ask for the step again. -/
structure Calm (s : TurnState) (r : TurnState × StepFlow) : Prop where
  kept : Kept s r.1
  flow : r.2 ≠ .retryStep

theorem Calm.trans {s' : TurnState} {r : TurnState × StepFlow} (h : Kept s s') (h' : Calm s' r) :
    Calm s r := ⟨h.trans h'.kept, h'.flow⟩

theorem Calm.andThen {r : TurnState × StepFlow} {next : TurnState → TurnState × StepFlow}
    (h : Calm s r) (hnext : ∀ s', Calm s' (next s')) : Calm s (TurnState.andThen r next) := by
  unfold TurnState.andThen
  split_ifs
  · exact .trans h.kept (hnext r.1)
  · exact h

theorem calm_proceed (s : TurnState) : Calm s (s, .proceed) := ⟨.refl s, StepFlow.noConfusion⟩

theorem calm_endTurn {s' : TurnState} (h : Kept s s') : Calm s (s', .endTurn) :=
  ⟨h, StepFlow.noConfusion⟩

theorem calm_nextStep {s' : TurnState} (h : Kept s s') : Calm s (s', .nextStep) :=
  ⟨h, StepFlow.noConfusion⟩

theorem calm_stopAt (s : TurnState) (hit : Option BudgetStop) : Calm s (s.stopAt hit) := by
  cases hit with
  | none => exact calm_proceed s
  | some stop => exact calm_endTurn (kept_failBudget s stop)

theorem calm_interruptTurn (s : TurnState) : Calm s s.interruptTurn :=
  calm_endTurn (.of_eq rfl rfl rfl rfl rfl rfl)

theorem calm_strikeThen (fault : Fault) (about : Bytes) (advises : Bool)
    {next : TurnState → TurnState × StepFlow} (hnext : ∀ s', Calm s' (next s')) :
    Calm s (strikeThen limits s fault about advises next) := by
  have hkept := kept_strike limits s fault about advises
  unfold strikeThen
  dsimp only
  split_ifs
  · exact .trans hkept (hnext _)
  · exact calm_endTurn hkept

/-! ### After an answer -/

theorem calm_handleResponseStop (limits : TurnLimits) (s : TurnState) (response : ChatResult)
    (content : Bytes) (io : ResponseIo) :
    Calm s (s.handleResponseStop limits response content io) := by
  unfold handleResponseStop
  dsimp only
  split_ifs
  · exact calm_proceed s
  · exact calm_strikeThen .cutOff _ true fun s' => calm_nextStep (.refl s')
  · exact calm_strikeThen .cutOff _ true fun s' => calm_nextStep (kept_push s' _ _)
  · exact calm_endTurn (kept_failTurn s _)

theorem calm_dropNameless (limits : TurnLimits) (s : TurnState) (response : ChatResult) :
    Calm s (s.dropNameless limits response) := by
  unfold dropNameless
  split_ifs
  · exact calm_proceed s
  · exact calm_strikeThen .nameless [] true fun s' => calm_nextStep (.refl s')
  · exact calm_strikeThen .nameless [] true calm_proceed

theorem calm_countRepeats (limits : TurnLimits) (shapes : List CallShape) (s : TurnState) :
    Calm s (countRepeats limits s shapes) := by
  induction shapes generalizing s with
  | nil => exact calm_proceed s
  | cons shape shapes ih =>
    rw [countRepeats]
    split_ifs
    · exact .trans (kept_clearRepeats s [] 0) (ih _)
    · exact .trans (kept_clearRepeats s shape.signature 1) (ih _)
    · exact calm_strikeThen .repeated [] false ih

theorem calm_toolCallsWithinLimits (limits : TurnLimits) (s : TurnState)
    (calls : List ResponseCall) (io : ResponseIo) :
    Calm s (s.toolCallsWithinLimits limits calls io) := by
  unfold toolCallsWithinLimits
  split_ifs
  · exact calm_proceed s
  · exact calm_endTurn (kept_failBudget s _)
  · exact calm_countRepeats limits io.shapes s

theorem kept_recordOutcome (s : TurnState) (outcome : CallOutcome) :
    Kept s (s.recordOutcome outcome) := by
  unfold recordOutcome
  dsimp only
  generalize (if outcome.executed = true then (1 : Int) else 0) = counted
  split_ifs
  · exact .of_eq rfl rfl rfl rfl rfl rfl
  · refine .trans ?_ (kept_pushStepNote _ editNote)
    exact .of_eq rfl rfl rfl rfl rfl rfl
  · exact .of_eq rfl rfl rfl rfl rfl rfl
  · refine .trans ?_ (kept_pushStepNote _ editNote)
    exact .of_eq rfl rfl rfl rfl rfl rfl
  · exact .of_eq rfl rfl rfl rfl rfl rfl

theorem kept_runCalls (limits : TurnLimits) (s : TurnState) (outcomes : List CallOutcome) :
    Kept s (s.runCalls limits outcomes) := by
  have hkept := kept_foldl kept_recordOutcome s outcomes
  unfold runCalls
  dsimp only
  split_ifs
  · exact hkept.trans (kept_setStrikes _ _ _)
  · exact hkept.trans (kept_foldl (fun s _ => kept_strike limits s .failedTools [] true) _ outcomes)

theorem calm_handleActivityPollResults (limits : TurnLimits) (s : TurnState)
    (polls : List ActivityPollResult) (exclusive : Bool) :
    Calm s (s.handleActivityPollResults limits polls exclusive) := by
  have hfirst : ∃ s', Kept s s' ∧
      (if polls.any (·.ok) then (s.setLastCall []).setStrikes .repeated 0 else s) = s' := by
    refine ⟨_, ?_, rfl⟩
    split_ifs
    · exact kept_clearRepeats s [] 0
    · exact .refl s
  obtain ⟨s', hkept, heq⟩ := hfirst
  unfold handleActivityPollResults
  dsimp only
  rw [heq]
  refine .trans hkept ?_
  cases quietPoll polls exclusive with
  | none =>
    dsimp only
    split_ifs
    · exact calm_proceed s'
    · exact .trans (kept_setStrikes s' .quietPoll 0) (calm_proceed _)
  | some poll =>
    dsimp only
    refine .trans ?_ (calm_strikeThen .quietPoll _ true calm_proceed)
    split_ifs
    · exact kept_recover s' _
    · exact (kept_setStrikes s' .quietPoll 0).trans (kept_recover _ _)

theorem calm_stopForRepeatedRejections (rejections : List RejectedCall) (seen : List Bytes)
    (s : TurnState) : Calm s (stopForRepeatedRejections seen s rejections) := by
  induction rejections generalizing s seen with
  | nil => exact calm_proceed s
  | cons rejection rejections ih =>
    rw [stopForRepeatedRejections]
    dsimp only
    split_ifs
    · exact ih seen s
    · exact .trans (kept_recover s _) (ih _ _)
    · exact calm_endTurn ((kept_recover s _).trans (kept_failBudget _ _))

theorem calm_executeToolCalls (limits : TurnLimits) (s : TurnState) (calls : List ResponseCall)
    (io : ResponseIo) : Calm s (s.executeToolCalls limits calls io) := by
  have hkept := (kept_runCalls limits s io.outcomes).trans
    (kept_applyQueuedSteering _ io.steering)
  unfold executeToolCalls
  dsimp only
  split_ifs
  · exact calm_nextStep hkept
  · exact .trans hkept (calm_interruptTurn _)
  · refine .trans hkept ((calm_handleActivityPollResults limits _ _ _).andThen fun s' => ?_)
    refine (calm_stopForRepeatedRejections _ _ s').andThen fun s'' => ?_
    refine .andThen ?_ fun s => calm_nextStep (.refl s)
    split_ifs
    · exact .trans (kept_advise s'' .repeated []) (calm_stopAt _ _)
    · exact calm_stopAt s'' _

theorem calm_finishWithProse (s : TurnState) (io : ResponseIo) : Calm s (s.finishWithProse io) := by
  have hkept := kept_applyQueuedSteering s io.steering
  unfold finishWithProse
  dsimp only
  split_ifs
  · exact calm_nextStep hkept
  · exact .trans hkept (calm_interruptTurn _)
  · exact calm_endTurn (hkept.trans (.of_eq rfl rfl rfl rfl rfl rfl))

theorem calm_takeAnswer (limits : TurnLimits) (s : TurnState) (response : ChatResult)
    (content : Bytes) (io : ResponseIo) : Calm s (s.takeAnswer limits response content io) := by
  unfold takeAnswer
  dsimp only
  by_cases hmarkup : response.toolCalls = [] ∧ (response.foreignMarkup || response.suppressed)
  · rw [if_pos hmarkup]
    exact calm_strikeThen .markup [] true fun s' => calm_nextStep (.refl s')
  · rw [if_neg hmarkup]
    refine (calm_toolCallsWithinLimits limits s _ io).andThen fun s' => ?_
    split_ifs
    · exact calm_strikeThen .empty _ true fun s' => calm_nextStep (.refl s')
    · exact .trans (kept_push s' _ _) (calm_finishWithProse _ io)
    · exact .trans (kept_push s' _ _) (calm_executeToolCalls limits _ _ io)

theorem calm_continuePause (s : TurnState) (response : ChatResult) (io : ResponseIo) :
    Calm s (s.continuePause response io) := by
  unfold continuePause
  dsimp only
  split_ifs
  · exact calm_endTurn (.of_eq rfl rfl rfl rfl rfl rfl)
  · exact calm_nextStep (.of_eq rfl rfl rfl rfl rfl rfl)

/-- What follows an answer that can be used. -/
theorem calm_respond (limits : TurnLimits) (s : TurnState) (response : ChatResult)
    (io : ResponseIo) : Calm s (s.respond limits response io) := by
  unfold respond
  refine (calm_stopAt s _).andThen fun s' => ?_
  split_ifs
  · exact calm_continuePause s' response io
  · exact (calm_handleResponseStop limits s' response _ io).andThen fun s' =>
      (calm_dropNameless limits s' response).andThen fun s' =>
        calm_takeAnswer limits s' response _ io

/-! ### Retries -/

/-- Whether compaction may still be asked for during the turn. -/
def compactionsLeft (s : TurnState) : Nat := s.midturnCompactionEnabled.toNat

/-- How many requests may still be tried again. -/
def retriesLeft (s : TurnState) : Nat :=
  (!s.contextOverflowRecoveryAttempted).toNat + s.capabilities.count

theorem Kept.compactionsLeft_le {s' : TurnState} (h : Kept s s') :
    s'.compactionsLeft ≤ s.compactionsLeft := by
  unfold compactionsLeft
  cases hon : s'.midturnCompactionEnabled with
  | false => exact Nat.zero_le _
  | true => rw [h.midturn hon]

theorem Kept.retriesLeft_le {s' : TurnState} (h : Kept s s') :
    s'.retriesLeft ≤ s.retriesLeft := by
  refine Nat.add_le_add ?_ h.count
  cases hon : s.contextOverflowRecoveryAttempted with
  | false => exact Bool.toNat_le _
  | true => rw [h.attempted hon]

/-- A stage that keeps what the loop keeps, and asks for the step again only
with less of something left. -/
structure Tries (left : TurnState → Nat) (s : TurnState) (r : TurnState × StepFlow) : Prop where
  kept : Kept s r.1
  retry : r.2 = .retryStep → left r.1 < left s

section Tries

variable {left : TurnState → Nat} {r : TurnState × StepFlow}

theorem Calm.tries (h : Calm s r) : Tries left s r := ⟨h.kept, fun hretry => absurd hretry h.flow⟩

theorem Tries.trans {s' : TurnState} (hleft : left s' ≤ left s) (h : Kept s s')
    (h' : Tries left s' r) : Tries left s r :=
  ⟨h.trans h'.kept, fun hretry => (h'.retry hretry).trans_le hleft⟩

theorem Tries.andThen {next : TurnState → TurnState × StepFlow}
    (hleft : ∀ s', Kept s s' → left s' ≤ left s) (h : Calm s r)
    (hnext : ∀ s', Tries left s' (next s')) : Tries left s (TurnState.andThen r next) := by
  unfold TurnState.andThen
  split_ifs
  · exact .trans (hleft _ h.kept) h.kept (hnext r.1)
  · exact h.tries

end Tries

/-- Compaction during a turn is asked for once. -/
theorem tries_compactDuringTurn (s : TurnState) (io : PrepareIo) :
    Tries compactionsLeft s (s.compactDuringTurn io) := by
  unfold compactDuringTurn
  split_ifs with hfirst hneeded
  · exact (calm_proceed s).tries
  · refine ⟨⟨rfl, fun h => absurd h Bool.false_ne_true, id, le_rfl, [], (List.append_nil _).symm,
      (List.append_nil _).symm⟩, fun _ => ?_⟩
    unfold compactionsLeft
    rw [hfirst.2]
    exact Nat.zero_lt_one
  · exact (calm_proceed s).tries

theorem kept_setSystem (s : TurnState) (system : Json) :
    Kept s { s with conversation := s.conversation.set 0 system .system } :=
  .of_eq rfl rfl rfl rfl rfl rfl

/-- A step is prepared again only when compaction was asked for. -/
theorem tries_prepareStep (s : TurnState) (io : PrepareIo) :
    Tries compactionsLeft s (s.prepareStep io) := by
  have hkept := (kept_applyQueuedSteering s io.steering).trans (kept_setSystem _ io.system)
  refine .trans hkept.compactionsLeft_le hkept ?_
  unfold prepareStep
  dsimp only
  split_ifs
  · exact (calm_endTurn (kept_failTurn _ _)).tries
  · exact (calm_interruptTurn _).tries
  · refine .andThen (fun _ => Kept.compactionsLeft_le) (calm_stopAt _ _) fun s' => ?_
    have harrived : Kept s' (io.arrived.foldl (fun s arrived => s.push arrived.1 arrived.2) s') :=
      kept_foldl (fun s arrived => kept_push s arrived.1 arrived.2) s' io.arrived
    refine .andThen (fun _ => Kept.compactionsLeft_le) (.trans harrived (calm_stopAt _ _)) ?_
    exact fun s'' => tries_compactDuringTurn s'' io

/-! ### Failed requests -/

theorem kept_ensureRuntimeContext (s : TurnState) (content : Bytes) :
    Kept s (s.ensureRuntimeContext content) := by
  unfold ensureRuntimeContext
  dsimp only
  split_ifs
  · exact .refl s
  · exact kept_push s _ _

theorem kept_switchOff {capabilities : ProviderCapabilities}
    (h : capabilities.count ≤ s.capabilities.count) : Kept s { s with capabilities } :=
  ⟨rfl, id, id, h, [], (List.append_nil _).symm, (List.append_nil _).symm⟩

/-- `HandleFailedResponse` recovers from a full context once. -/
theorem kept_recoverContext (s : TurnState) :
    Kept s { s with
      contextOverflowRecoveryAttempted := true, midturnCompactionEnabled := false } :=
  ⟨rfl, fun h => absurd h Bool.false_ne_true, fun _ => rfl, le_rfl, [],
    (List.append_nil _).symm, (List.append_nil _).symm⟩

/-- Degrading switches one capability off. -/
theorem degrade_spec {s' : TurnState} {response : ChatResult} {io : FailureIo}
    (h : s.degrade response io = some s') : Kept s s' ∧ s'.retriesLeft < s.retriesLeft := by
  obtain ⟨capabilities, hdegraded, rfl⟩ := Option.map_eq_some_iff.mp h
  have hcount := count_degradeAndRetry hdegraded
  have hkept : Kept s { s with capabilities } := kept_switchOff (by omega)
  have hless : retriesLeft { s with capabilities } < s.retriesLeft :=
    Nat.add_lt_add_left (Nat.lt_of_succ_le hcount.le) _
  split_ifs
  · have hcontext := kept_ensureRuntimeContext { s with capabilities } io.runtimeContext
    exact ⟨hkept.trans hcontext, hcontext.retriesLeft_le.trans_lt hless⟩
  · exact ⟨hkept, hless⟩

/-- A request is tried again only when something is switched off for it. -/
theorem tries_handleFailedResponse (attachment : Bool) (s : TurnState) (response : ChatResult)
    (io : FailureIo) : Tries retriesLeft s (handleFailedResponse attachment s response io) := by
  unfold handleFailedResponse
  by_cases hinterrupted : response.interrupted = true
  · rw [if_pos hinterrupted]
    have hkept := (kept_push s (harnessMessage interruptedText) .internal).trans
      (kept_applyQueuedSteering _ io.steering)
    dsimp only
    split_ifs
    · exact (calm_nextStep hkept).tries
    · exact (Calm.trans hkept (calm_interruptTurn _)).tries
  rw [if_neg hinterrupted]
  by_cases herror : response.error = []
  · rw [if_pos herror]
    exact (calm_proceed s).tries
  rw [if_neg herror]
  refine .andThen (fun _ => Kept.retriesLeft_le) (calm_stopAt s _) fun s' => ?_
  by_cases hsafe : (!s'.contextOverflowRecoveryAttempted && response.safeContextRecovery &&
      !attachment) = true
  · rw [if_pos hsafe]
    have hfirst : s'.contextOverflowRecoveryAttempted = false :=
      (Bool.not_eq_true' _).mp (Bool.and_eq_true_iff.mp (Bool.and_eq_true_iff.mp hsafe).1).1
    have hkept := kept_recoverContext s'
    dsimp only
    cases io.compacted with
    | none => exact (calm_endTurn (hkept.trans (kept_failTurn _ _))).tries
    | some conversation =>
      refine ⟨hkept.trans (.of_eq rfl rfl rfl rfl rfl rfl), fun _ => ?_⟩
      unfold retriesLeft
      rw [hfirst]
      exact Nat.add_lt_add_right Nat.zero_lt_one _
  · rw [if_neg hsafe]
    cases hdegraded : s'.degrade response io with
    | none => exact (calm_endTurn (kept_failTurn s' _)).tries
    | some next => exact ⟨(degrade_spec hdegraded).1, fun _ => (degrade_spec hdegraded).2⟩

end TurnState

end UAgent
