/-
UAgent/App/ReceiptLog.lean

The receipts a runtime keeps of the commands it was sent (`ReceiptLog`,
src/app/session_command.cc), so that a retried command is answered and not
run again.

A receipt is the command as it came and its outcome so far.  `Check` admits a
command under a new request id, replays the outcome of one it holds, and
rejects a different command under a held id; `Record` files the outcome once
the command has run.  Both hold the lock throughout, so a run is a list of
calls.

`ReceiptHistory` adds to the log which outcome was recorded last for each
id.  Main result: `receipts_sound`.
-/
import UAgent.App.SessionServer
import UAgent.Base.BoundedStore

namespace UAgent

open Bytes

/-- `kReceiptEntries`. -/
def kReceiptEntries : Nat := 256

/-- `ReceiptVerdict`. -/
inductive ReceiptVerdict where
  | kNew
  | kReplay
  | kReject
deriving DecidableEq

/-- `ReceiptLog`: under each request id the command and its outcome. -/
structure ReceiptLog where
  receipts : BoundedStore Bytes (Json × Json) := {}

/-- `JsonValue(outcome, "pending", false)`. -/
def isPending (outcome : Json) : Bool := jsonValueBool outcome (lit "pending") false

/-- The outcome of a command that was admitted and has not answered. -/
def admittedOutcome (request : Bytes) : Json :=
  .ofFields [(lit "kind", .str (lit "outcome")), (lit "request_id", .str request),
    (lit "accepted", .bool true), (lit "pending", .bool true)]

namespace ReceiptLog

/-- What `Check` answers, with `previous` as it leaves it. -/
structure Checked where
  verdict : ReceiptVerdict
  previous : Json
  log : ReceiptLog

/-- `ReceiptLog::Check`. -/
def check (log : ReceiptLog) (command : Json) (request : Bytes) (previous : Json) : Checked :=
  match log.receipts.get? request with
  | some (held, outcome) =>
    if held.eqv command then ⟨.kReplay, outcome, log⟩ else ⟨.kReject, previous, log⟩
  | none =>
    match log.receipts.makeRoom kReceiptEntries fun receipt => !isPending receipt.2 with
    | none => ⟨.kReject, previous, log⟩
    | some receipts => ⟨.kNew, previous, ⟨receipts.push request (command, admittedOutcome request)⟩⟩

/-- The id of the request an outcome frame answers. -/
def answered (frame : Json) : Bytes := jsonValueStr frame (lit "request_id") []

/-- `ReceiptLog::Record`. -/
def record (log : ReceiptLog) (frame : Json) : ReceiptLog :=
  if frameKind frame ≠ lit "outcome" then log
  else
    match log.receipts.get? (answered frame) with
    | some (command, _) => ⟨log.receipts.set (answered frame) (command, frame)⟩
    | none => log

/-- A call on the log. -/
inductive Call where
  | check (command : Json) (request : Bytes)
  | record (frame : Json)

/-- The log after a call. -/
def step (log : ReceiptLog) : Call → ReceiptLog
  | .check command request => (log.check command request .null).log
  | .record frame => log.record frame

/-! ### What a call does -/

/-- What `Check` may do: answer from the receipt it holds, reject, or make
room and admit. -/
theorem check_cases (log : ReceiptLog) (command : Json) (request : Bytes) (previous : Json) :
    (∃ held outcome, log.receipts.get? request = some (held, outcome) ∧
      log.check command request previous =
        if held.eqv command then ⟨.kReplay, outcome, log⟩ else ⟨.kReject, previous, log⟩) ∨
    (log.receipts.get? request = none ∧
      log.check command request previous = ⟨.kReject, previous, log⟩) ∨
    ∃ receipts, log.receipts.get? request = none ∧
      (log.receipts.makeRoom kReceiptEntries fun receipt => !isPending receipt.2) = some receipts ∧
      log.check command request previous =
        ⟨.kNew, previous, ⟨receipts.push request (command, admittedOutcome request)⟩⟩ := by
  rcases hheld : log.receipts.get? request with - | ⟨held, outcome⟩
  · rcases hroom : log.receipts.makeRoom kReceiptEntries fun receipt => !isPending receipt.2
      with - | receipts
    · refine .inr (.inl ⟨rfl, ?_⟩)
      simp only [check, hheld, hroom]
    · refine .inr (.inr ⟨receipts, rfl, rfl, ?_⟩)
      simp only [check, hheld, hroom]
  · refine .inl ⟨held, outcome, rfl, ?_⟩
    simp only [check, hheld]

/-- What `Record` may do: nothing, or file the outcome of a held request. -/
theorem record_cases (log : ReceiptLog) (frame : Json) :
    (log.record frame = log ∧ (isOutcome frame = true → log.receipts.get? (answered frame) = none)) ∨
    ∃ command outcome, isOutcome frame = true ∧
      log.receipts.get? (answered frame) = some (command, outcome) ∧
      log.record frame = ⟨log.receipts.set (answered frame) (command, frame)⟩ := by
  by_cases hkind : frameKind frame = lit "outcome"
  · rcases hheld : log.receipts.get? (answered frame) with - | ⟨command, outcome⟩
    · refine .inl ⟨?_, fun _ => rfl⟩
      simp only [record, hkind, hheld, ne_eq, not_true_eq_false, if_false]
    · refine .inr ⟨command, outcome, decide_eq_true hkind, rfl, ?_⟩
      simp only [record, hkind, hheld, ne_eq, not_true_eq_false, if_false]
  · refine .inl ⟨if_pos hkind, fun h => absurd (of_decide_eq_true h) hkind⟩

/-- No call lets go of a pending receipt. -/
theorem get?_step_of_pending {log : ReceiptLog} {id : Bytes} {receipt : Json × Json}
    (hid : log.receipts.get? id = some receipt) (hpending : isPending receipt.2 = true)
    (call : Call) : ((log.step call).receipts.get? id).isSome := by
  cases call with
  | check command request =>
    show (((log.check command request .null).log).receipts.get? id).isSome
    rcases log.check_cases command request .null with
      ⟨held, outcome, -, hcheck⟩ | ⟨-, hcheck⟩ | ⟨receipts, -, hroom, hcheck⟩
    · rw [hcheck]
      split_ifs <;> simp [hid]
    · simp [hcheck, hid]
    · have hkept := BoundedStore.get?_makeRoom_of_spared hroom hid (by simp [hpending])
      rw [hcheck, BoundedStore.get?_push]
      split_ifs
      · rfl
      · simp [hkept]
  | record frame =>
    show ((log.record frame).receipts.get? id).isSome
    rcases log.record_cases frame with ⟨hrecord, -⟩ | ⟨command, outcome, -, -, hrecord⟩
    · simp [hrecord, hid]
    · rw [hrecord, BoundedStore.get?_set]
      split_ifs
      · rfl
      · simp [hid]

/-- The bound and the agreement of order and map are kept. -/
theorem sound_step {log : ReceiptLog} (h : BoundedStore.Sound kReceiptEntries log.receipts)
    (call : Call) : BoundedStore.Sound kReceiptEntries (log.step call).receipts := by
  cases call with
  | check command request =>
    show BoundedStore.Sound _ (log.check command request .null).log.receipts
    rcases log.check_cases command request .null with
      ⟨held, outcome, -, hcheck⟩ | ⟨-, hcheck⟩ | ⟨receipts, hnone, hroom, hcheck⟩
    · rw [hcheck]
      split_ifs <;> exact h
    · rw [hcheck]
      exact h
    · obtain ⟨hsound, hlt⟩ := h.makeRoom hroom
      rw [hcheck]
      exact hsound.push (BoundedStore.get?_makeRoom_eq_none hroom hnone) hlt _
  | record frame =>
    show BoundedStore.Sound _ (log.record frame).receipts
    rcases log.record_cases frame with ⟨hrecord, -⟩ | ⟨command, outcome, -, hheld, hrecord⟩
    · rw [hrecord]
      exact h
    · rw [hrecord]
      exact h.set (by simp [hheld]) _

/-- Whether the id's receipt is still there after the call. -/
def HeldAfter (id : Bytes) (log : ReceiptLog) (call : Call) : Prop :=
  ((log.step call).receipts.get? id).isSome

/-- A receipt that no call of a run evicts is there at its end. -/
theorem held_of_allOk {id : Bytes} {calls : List Call} {log : ReceiptLog}
    (hlog : (log.receipts.get? id).isSome) (h : Run.AllOk step (HeldAfter id) log calls) :
    ((calls.foldl step log).receipts.get? id).isSome := by
  induction calls generalizing log with
  | nil => exact hlog
  | cons call calls ih => exact ih h.1 h.2

/-- A held id is not new. -/
theorem verdict_ne_kNew {log : ReceiptLog} {request : Bytes}
    (h : (log.receipts.get? request).isSome) (command previous : Json) :
    (log.check command request previous).verdict ≠ .kNew := by
  rcases log.check_cases command request previous with
    ⟨held, outcome, -, hcheck⟩ | ⟨hnone, -⟩ | ⟨receipts, hnone, -, -⟩
  · rw [hcheck]
    split_ifs <;> simp
  · simp [hnone] at h
  · simp [hnone] at h

end ReceiptLog

/-! ### A run, with what was recorded -/

/-- The log, and for each id the outcome recorded last since the id was
admitted. -/
structure ReceiptHistory where
  log : ReceiptLog := {}
  last : Bytes → Option Json := fun _ => none

namespace ReceiptHistory

open ReceiptLog (Call answered)

def step (h : ReceiptHistory) (call : Call) : ReceiptHistory where
  log := h.log.step call
  last :=
    match call with
    | .check command request =>
      if (h.log.check command request .null).verdict = .kNew then
        Function.update h.last request (some (admittedOutcome request))
      else h.last
    | .record frame =>
      if isOutcome frame then Function.update h.last (answered frame) (some frame) else h.last

/-- The history of some calls on a fresh log. -/
def run (calls : List Call) : ReceiptHistory := calls.foldl step {}

/-- Every receipt holds the outcome recorded last for its id. -/
def Current (h : ReceiptHistory) : Prop :=
  ∀ id receipt, h.log.receipts.get? id = some receipt → h.last id = some receipt.2

theorem current_step {h : ReceiptHistory} (hcur : Current h) (call : Call) :
    Current (h.step call) := by
  intro id receipt hid
  cases call with
  | check command request =>
    show (if (h.log.check command request .null).verdict = .kNew then
        Function.update h.last request (some (admittedOutcome request)) else h.last) id = _
    change ((h.log.check command request .null).log).receipts.get? id = some receipt at hid
    rcases h.log.check_cases command request .null with
      ⟨held, outcome, hheld, hcheck⟩ | ⟨-, hcheck⟩ | ⟨receipts, -, hroom, hcheck⟩
    · have hlog : (h.log.check command request .null).log = h.log := by
        rw [hcheck]
        split_ifs <;> rfl
      rw [if_neg (ReceiptLog.verdict_ne_kNew (by simp [hheld]) command .null)]
      rw [hlog] at hid
      exact hcur id receipt hid
    · rw [hcheck] at hid ⊢
      exact hcur id receipt hid
    · rw [hcheck, BoundedStore.get?_push] at hid
      rw [hcheck, if_pos rfl, Function.update_apply]
      split_ifs at hid ⊢ with heq
      · obtain rfl := Option.some.inj hid
        rfl
      · exact hcur id receipt (BoundedStore.get?_of_makeRoom hroom hid)
  | record frame =>
    show (if isOutcome frame then Function.update h.last (answered frame) (some frame)
      else h.last) id = _
    change (h.log.record frame).receipts.get? id = some receipt at hid
    rcases h.log.record_cases frame with ⟨hrecord, hnone⟩ | ⟨command, outcome, hout, -, hrecord⟩
    · rw [hrecord] at hid
      split_ifs with hout
      · rw [Function.update_of_ne]
        · exact hcur id receipt hid
        · rintro rfl
          rw [hnone hout] at hid
          cases hid
      · exact hcur id receipt hid
    · rw [hrecord, BoundedStore.get?_set] at hid
      rw [if_pos hout, Function.update_apply]
      split_ifs at hid ⊢ with heq
      · obtain rfl := Option.some.inj hid
        rfl
      · exact hcur id receipt hid

/-- What a run of calls keeps. -/
theorem run_inv (calls : List Call) :
    BoundedStore.Sound kReceiptEntries (run calls).log.receipts ∧ Current (run calls) := by
  induction calls using List.reverseRecOn with
  | nil => exact ⟨.empty _, fun id receipt h => nomatch h⟩
  | append_singleton calls call ih =>
    have hrun : run (calls ++ [call]) = (run calls).step call := by simp [run]
    rw [hrun]
    exact ⟨ReceiptLog.sound_step ih.1 call, current_step ih.2 call⟩

/-- What a client may rely on. -/
structure ReceiptsSound (h : ReceiptHistory) : Prop where
  /-- order and map hold the same ids, each once -/
  sameIds : h.log.receipts.order.Perm (h.log.receipts.entries.map Prod.fst)
  nodup : h.log.receipts.order.Nodup
  atMost : h.log.receipts.order.length ≤ 256
  newUnheld : ∀ command request previous,
    (h.log.check command request previous).verdict = .kNew → h.log.receipts.get? request = none
  /-- an id that got `kNew` does not get it again until its receipt goes -/
  newOnce : ∀ command request previous calls,
    (h.log.check command request previous).verdict = .kNew →
    Run.AllOk ReceiptLog.step (ReceiptLog.HeldAfter request)
      (h.log.check command request previous).log calls →
    ∀ command' previous', ((calls.foldl ReceiptLog.step
      (h.log.check command request previous).log).check command' request previous').verdict ≠ .kNew
  differing : ∀ command request previous held outcome,
    h.log.receipts.get? request = some (held, outcome) → held.eqv command = false →
    h.log.check command request previous = ⟨.kReject, previous, h.log⟩
  replays : ∀ command request previous,
    (h.log.check command request previous).verdict = .kReplay →
    h.last request = some (h.log.check command request previous).previous
  pendingKept : ∀ id receipt call, h.log.receipts.get? id = some receipt →
    isPending receipt.2 = true → ((h.log.step call).receipts.get? id).isSome

/-- **Every run of calls keeps the receipts sound.** -/
theorem receipts_sound (calls : List Call) : ReceiptsSound (run calls) := by
  obtain ⟨hsound, hcur⟩ := run_inv calls
  refine ⟨hsound.perm, hsound.nodup, hsound.length_le, ?_, ?_, ?_, ?_, ?_⟩
  · intro command request previous hnew
    rcases hheld : (run calls).log.receipts.get? request with - | receipt
    · rfl
    · exact absurd hnew (ReceiptLog.verdict_ne_kNew (by simp [hheld]) command previous)
  · intro command request previous later hnew hkept command' previous'
    refine ReceiptLog.verdict_ne_kNew (ReceiptLog.held_of_allOk ?_ hkept) command' previous'
    rcases (run calls).log.check_cases command request previous with
      ⟨held, outcome, hheld, -⟩ | ⟨-, hcheck⟩ | ⟨receipts, -, -, hcheck⟩
    · exact absurd hnew (ReceiptLog.verdict_ne_kNew (by simp [hheld]) command previous)
    · rw [hcheck] at hnew
      cases hnew
    · rw [hcheck, BoundedStore.get?_push, if_pos rfl]
      rfl
  · intro command request previous held outcome hheld hdiffers
    simp only [ReceiptLog.check, hheld, hdiffers, Bool.false_eq_true, if_false]
  · intro command request previous hreplay
    rcases (run calls).log.check_cases command request previous with
      ⟨held, outcome, hheld, hcheck⟩ | ⟨-, hcheck⟩ | ⟨receipts, -, -, hcheck⟩
    · rw [hcheck] at hreplay ⊢
      split_ifs at hreplay ⊢
      exact hcur request _ hheld
    · rw [hcheck] at hreplay
      cases hreplay
    · rw [hcheck] at hreplay
      cases hreplay
  · exact fun id receipt call hid hpending =>
      ReceiptLog.get?_step_of_pending hid hpending call

end ReceiptHistory

end UAgent
