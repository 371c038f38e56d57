/-
UAgent/App/TransientBatcher.lean

A worker's events on their way to its clients (`TransientBatcher`,
src/app/transient_batcher.cc).  Streamed text is held back for a moment, and
so is usage; the first of each in a turn, and every other event, goes at once
after whatever is held back.

Push, Flush and a pass of the flush thread hold one lock, so a run is a
sequence of these in any order; what the clock reads is an argument of each.
-/
import UAgent.Core.Json

namespace UAgent

open Bytes

/-! ### Events -/

structure AppEvent where
  sequence : Nat := 0
  time : Bytes := []
  type : Bytes
  data : Json := .null
  deriving DecidableEq

/-- `AppType(EventId::kTurnStarted)` and so on. -/
def kTurnStarted : Bytes := lit "turn.started"
def kTurnStopped : Bytes := lit "turn.stopped"
def kTurnCompleted : Bytes := lit "turn.completed"
def kTurnStatus : Bytes := lit "turn.status"
def kAnswerDelta : Bytes := lit "response.answer.delta"
def kReasoningDelta : Bytes := lit "response.reasoning.delta"
def kUsageUpdated : Bytes := lit "usage.updated"

namespace AppEvent

/-- A piece of streamed text. -/
def IsDelta (e : AppEvent) : Prop := e.type = kAnswerDelta ∨ e.type = kReasoningDelta

def IsUsage (e : AppEvent) : Prop := e.type = kUsageUpdated

/-- Neither text nor usage nor a status line. -/
def IsOther (e : AppEvent) : Prop := ¬e.IsDelta ∧ ¬e.IsUsage ∧ e.type ≠ kTurnStatus

instance (e : AppEvent) : Decidable e.IsDelta := inferInstanceAs (Decidable (_ ∨ _))
instance (e : AppEvent) : Decidable e.IsUsage := inferInstanceAs (Decidable (_ = _))
instance (e : AppEvent) : Decidable e.IsOther := inferInstanceAs (Decidable (_ ∧ _ ∧ _))

def responseId (e : AppEvent) : Bytes := jsonValueStr e.data (lit "response_id") []

def text (e : AppEvent) : Bytes := (jsonStringRef e.data (lit "text")).getD []

def reset (e : AppEvent) : Bool := jsonValueBool e.data (lit "reset") false

/-- `DeltaKey` -/
def deltaKey (e : AppEvent) : Bytes := e.type ++ lit "\n" ++ e.responseId

/-- The held delta with another one's text at its end. -/
def append (held e : AppEvent) : AppEvent :=
  let data := held.data.set (lit "text") (.str (held.text ++ e.text))
  { held with
    sequence := e.sequence
    time := e.time
    data :=
      if jsonValueBool e.data (lit "preview_truncated") false then
        data.set (lit "preview_truncated") (.bool true)
      else data }

end AppEvent

/-! ### The batcher -/

/-- `kStreamBatchBytes` -/
def kStreamBatchBytes : Nat := 8 * 1024

/-- `kStreamBatchInterval`, in nanoseconds of the steady clock -/
def kStreamBatchInterval : Int := 12 * 1000000

/-- `kUsagePublishInterval` -/
def kUsagePublishInterval : Int := 100 * 1000000

structure TransientBatcher where
  sentDeltaKeys : List Bytes := []
  pendingDelta : Option AppEvent := none
  pendingUsage : Option AppEvent := none
  deltaStarted : Int := 0
  usageSent : Int := 0
  sentUsage : Bool := false
  stop : Bool := false

namespace TransientBatcher

/-- `FlushDelta`: the batcher after it and what it delivers. -/
def flushDelta (b : TransientBatcher) : TransientBatcher × List AppEvent :=
  ({ b with pendingDelta := none }, b.pendingDelta.toList)

/-- `FlushUsage`, the clock reading `sent`. -/
def flushUsage (b : TransientBatcher) (sent : Int) : TransientBatcher × List AppEvent :=
  match b.pendingUsage with
  | none => (b, [])
  | some e => ({ b with pendingUsage := none, usageSent := sent }, [e])

/-- `FlushLocked` -/
def flushLocked (b : TransientBatcher) (sent : Int) : TransientBatcher × List AppEvent :=
  let (b, delta) := b.flushDelta
  let (b, usage) := b.flushUsage sent
  (b, delta ++ usage)

/-- The end of `QueueDelta`: the event joins the held delta of its key or is
held itself, and what is held goes when it is long or old. -/
def holdDelta (b : TransientBatcher) (now : Int) (e : AppEvent) :
    TransientBatcher × List AppEvent :=
  let b :=
    match b.pendingDelta with
    | none => { b with pendingDelta := some e, deltaStarted := now }
    | some held => { b with pendingDelta := some (held.append e) }
  let batched := (b.pendingDelta.bind fun held => jsonStringRef held.data (lit "text"))
  if batched.any (fun text => kStreamBatchBytes ≤ text.length) ∨
      kStreamBatchInterval ≤ now - b.deltaStarted then
    b.flushDelta
  else (b, [])

/-- `QueueDelta` -/
def queueDelta (b : TransientBatcher) (now sent : Int) (e : AppEvent) :
    TransientBatcher × List AppEvent :=
  if e.reset ∨ e.deltaKey ∉ b.sentDeltaKeys then
    -- a reset is not entered among the keys
    let keys := if e.reset then b.sentDeltaKeys else e.deltaKey :: b.sentDeltaKeys
    let (b, held) := { b with sentDeltaKeys := keys }.flushLocked sent
    (b, held ++ [e])
  else
    let (b, held) :=
      if b.pendingDelta.any fun held => held.deltaKey ≠ e.deltaKey then b.flushDelta else (b, [])
    let (b, out) := b.holdDelta now e
    (b, held ++ out)

/-- `QueueUsage` -/
def queueUsage (b : TransientBatcher) (now sent : Int) (e : AppEvent) :
    TransientBatcher × List AppEvent :=
  if b.sentUsage = false then ({ b with sentUsage := true, usageSent := now }, [e])
  else
    let b := { b with pendingUsage := some e }
    if kUsagePublishInterval ≤ now - b.usageSent then b.flushUsage sent else (b, [])

/-- A turn starts anew with its keys and its usage. -/
def newTurn (b : TransientBatcher) : TransientBatcher :=
  { b with sentDeltaKeys := [], sentUsage := false }

/-- A turn that starts sends what is held back of the one before. -/
def beginTurn (b : TransientBatcher) (sent : Int) (e : AppEvent) :
    TransientBatcher × List AppEvent :=
  if e.type = kTurnStarted then
    let (b, held) := b.flushLocked sent
    (b.newTurn, held)
  else (b, [])

/-- The rest of `Push`. -/
def queue (b : TransientBatcher) (now sent : Int) (e : AppEvent) :
    TransientBatcher × List AppEvent :=
  if e.IsDelta then b.queueDelta now sent e
  else if e.IsUsage then b.queueUsage now sent e
  else if e.type = kTurnStatus then (b, [e])
  else
    let (b, held) := b.flushLocked sent
    (if e.type = kTurnCompleted ∨ e.type = kTurnStopped then b.newTurn else b, held ++ [e])

/-- `Push`; `now` is the clock when the event is queued and `sent` when
usage is flushed. -/
def push (b : TransientBatcher) (now sent : Int) (e : AppEvent) :
    TransientBatcher × List AppEvent :=
  let (b, first) := b.beginTurn sent e
  let (b, out) := b.queue now sent e
  (b, first ++ out)

/-- A pass of `FlushLoop` once the thread is awake. -/
def wake (b : TransientBatcher) (now sent : Int) : TransientBatcher × List AppEvent :=
  if b.stop then (b, [])
  else
    let (b, delta) :=
      if b.pendingDelta.isSome ∧ kStreamBatchInterval ≤ now - b.deltaStarted then b.flushDelta
      else (b, [])
    let (b, usage) :=
      if b.pendingUsage.isSome ∧ kUsagePublishInterval ≤ now - b.usageSent then
        b.flushUsage sent
      else (b, [])
    (b, delta ++ usage)

end TransientBatcher

/-! ### Runs -/

/-- A batcher, what was pushed to it and what it delivered. -/
structure BatcherRun where
  batcher : TransientBatcher := {}
  pushed : List AppEvent := []
  delivered : List AppEvent := []

/-- What happens under the lock. -/
inductive BatcherEvent where
  | push (now sent : Int) (event : AppEvent)
  | wake (now sent : Int)
  | flush (sent : Int)
  | stop

namespace BatcherRun

/-- The batcher goes on, having delivered `out`. -/
def deliver (r : BatcherRun) (out : TransientBatcher × List AppEvent) : BatcherRun :=
  { r with batcher := out.1, delivered := r.delivered ++ out.2 }

def step (r : BatcherRun) : BatcherEvent → BatcherRun
  | .push now sent event =>
    { r.deliver (r.batcher.push now sent event) with pushed := r.pushed ++ [event] }
  | .wake now sent => r.deliver (r.batcher.wake now sent)
  | .flush sent => r.deliver (r.batcher.flushLocked sent)
  | .stop => { r with batcher := { r.batcher with stop := true } }

end BatcherRun

end UAgent
