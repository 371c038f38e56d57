/-
UAgent/Browser/Broker.lean

Who may use which browser (`Broker`, src/browser/broker.cc): the shared one,
slot 0, or one of the isolated ones for research.  A session waits for a slot,
gets it with a lease, and gives it back.

`Execute` takes the lock of the broker several times and the lock of a slot
once; a step of `BrokerState.step` is what is done while the lock of the broker
is held, or what is asked of a browser between two of these.  Calls on any
number of threads take their steps in any order.

The browser itself is left out: a `BrowserRuntime` is what it has been asked
since it was made, and its answers come with the steps.
-/
import UAgent.App.AssetStore
import UAgent.Base.Evolve
import UAgent.Base.Run
import Mathlib.Logic.Function.Basic

namespace UAgent

open Bytes

def kMaxResearch : Nat := 4
def kMaxWaiting : Nat := 64
/-- In nanoseconds, as all times here. -/
def kWaitHeartbeat : Int := 15 * 10 ^ 9
def kOwnerQuiet : Int := 3 * 60 * 10 ^ 9

/-- The shared browser and the research ones. -/
abbrev SlotId := Fin (kMaxResearch + 1)

/-! ### The state -/

/-- What a browser is asked. -/
inductive BrowserAsk
  /-- the command of a caller, and the lease of the slot then -/
  | command (lease : Bytes) (command : Json)
  /-- the broker's own release of a session, status or snapshot -/
  | release (session : Bytes)
  | look (op : Bytes)
  | stopIfIdle
  | shutdown
deriving DecidableEq

structure BrowserRuntime where
  incarnation : Nat := 0
  asked : List BrowserAsk := []
deriving DecidableEq

def BrowserRuntime.ask (runtime : BrowserRuntime) (asks : List BrowserAsk) : BrowserRuntime :=
  { runtime with asked := runtime.asked ++ asks }

/-- `Broker::State::Slot`. -/
structure BrokerSlot where
  runtime : BrowserRuntime := {}
  runtimeToken : Bytes := []
  status : Json :=
    Json.ofFields [(lit "ok", .bool true), (lit "mode", .str (lit "idle")),
      (lit "running", .bool false)]
  owner : Bytes := []
  token : Bytes := []
  previous : Bytes := []
  used : Int := 0
  live : Bool := false
  busy : Bool := false
  releasePending : Bool := false

/-- `Broker::State::Waiter`. -/
structure BrokerWaiter where
  session : Bytes
  request : Bytes
  shared : Bool
  polled : Int
deriving DecidableEq

/-- Where a call of `Execute` is.  From `granted` on it holds the lock of its
slot. -/
inductive BrokerPhase
  /-- before the lock of a slot -/
  | waiting (slot : SlotId)
  | granted (slot : SlotId) (token : Bytes) (incarnation : Nat) (previous : Bytes)
  /-- the browser is the one of the lease -/
  | ready (slot : SlotId) (previous : Bytes)
  | ran (slot : SlotId) (result snapshot : Json)
  | marked (slot : SlotId) (result snapshot : Json)
  | checked (slot : SlotId) (result snapshot : Json) (release : Bool)

structure BrokerCall where
  command : Json
  phase : BrokerPhase

structure BrokerState where
  slots : SlotId → BrokerSlot
  waiting : List BrokerWaiter := []
  capacity : Nat := 0
  stopping : Bool := false
  /-- the calls that are under way -/
  calls : Nat → Option BrokerCall := fun _ => none
  /-- which call holds the lock of a slot -/
  holder : SlotId → Option Nat := fun _ => none
  /-- the leases that were given, with their sessions -/
  leases : List (Bytes × Bytes) := []
  /-- what the calls returned -/
  replies : List (Nat × Json) := []

/-! ### What a command says -/

def opOf (command : Json) : Bytes := jsonValueStr command (lit "op") []
def sessionOf (command : Json) : Bytes := jsonValueStr command (lit "session_id") []
def leaseOf (command : Json) : Bytes := jsonValueStr command (lit "lease") []
def requestOf (command : Json) : Bytes := jsonValueStr command (lit "request_id") []
def modeOf (status : Json) : Bytes := jsonValueStr status (lit "mode") []

def errorReply (message : Bytes) : Json := Json.ofFields [(lit "error", .str message)]

/-- What a step reads outside the broker: the clock, which sessions live, a new
token (empty when there is none) and whether the settings could be saved. -/
structure BrokerWorld where
  now : Int
  live : Bytes → Bool
  randomToken : Bytes
  saved : Bool := true

namespace BrokerState

variable (s : BrokerState)

def setSlot (slot : SlotId) (value : BrokerSlot) : BrokerState :=
  { s with slots := Function.update s.slots slot value }

/-- `Clear`. -/
def cleared (slot : BrokerSlot) : BrokerSlot :=
  { slot with
    previous := slot.owner
    owner := []
    token := []
    releasePending := false
    status := slot.status.set (lit "session_id") (.str []) }

/-- Whether `Prune` takes a slot from its owner. -/
def expired (world : BrokerWorld) (slot : BrokerSlot) : Bool :=
  slot.owner ≠ [] && !slot.busy && modeOf slot.status ≠ lit "human" &&
    (slot.live && !world.live slot.owner || decide (kOwnerQuiet ≤ world.now - slot.used))

/-- `Prune`. -/
def prune (world : BrokerWorld) : BrokerState :=
  { s with
    waiting := s.waiting.filter fun waiter => !decide (kWaitHeartbeat < world.now - waiter.polled)
    slots := fun slot =>
      if expired world (s.slots slot) then cleared (s.slots slot) else s.slots slot }

/-- `Owned`. -/
def owned (session : Bytes) : Option SlotId :=
  if session = [] then none
  else (List.finRange (kMaxResearch + 1)).find? fun slot => (s.slots slot).owner = session

/-- `Instance`. -/
def instanceOf (command : Json) : Option SlotId :=
  match jsonValueStr command (lit "instance_id") (lit "0") with
  | [digit] => (List.finRange (kMaxResearch + 1)).find? fun slot =>
      digit = ch '0' + UInt8.ofNat slot.val
  | _ => none

/-- The name of a slot in replies. -/
def slotName (slot : SlotId) : Json := .str (Json.decimal slot.val)

/-- `Summary`. -/
def summary (slot : SlotId) : Json :=
  (((s.slots slot).status.set (lit "instance_id") (slotName slot)).set (lit "session_id")
    (.str (s.slots slot).owner)).set (lit "isolated") (.bool (slot.val ≠ 0))

/-- The slots that `Status` tells of. -/
def toldOf (slot : SlotId) : Bool :=
  slot.val ≤ s.capacity || (s.slots slot).owner ≠ [] ||
    modeOf (s.slots slot).status = lit "human"

/-- `Status`. -/
def statusReply (slot : SlotId) : Json :=
  (((s.summary slot).set (lit "parallel_capacity") (.int (Int64.ofNat s.capacity))).set
    (lit "instances")
    (.arr (((List.finRange (kMaxResearch + 1)).filter s.toldOf).map fun slot =>
      (s.summary slot).erase (lit "viewer")))).set
    (lit "queue")
    (.arr (s.waiting.map fun waiter =>
      Json.ofFields [(lit "session_id", .str waiter.session), (lit "shared", .bool waiter.shared)]))

/-! ### The first section of `Execute` -/

/-- What a section of `Execute` comes to: a reply, or the slot to lock. -/
abbrev Admitted := BrokerState × (Json ⊕ SlotId)

/-- The capacity that is asked for. -/
def askedCapacity (command : Json) : Int :=
  jsonValueInteger (-2 ^ 31) (2 ^ 31 - 1) command (lit "parallel_capacity") (-1)

/-- Without research browsers everybody waits for the shared one. -/
def withCapacity (capacity : Int) : BrokerState :=
  { s with
    capacity := capacity.toNat
    waiting :=
      if capacity = 0 then s.waiting.map fun waiter => { waiter with shared := true }
      else s.waiting }

/-- The operation `configure`. -/
def configure (command : Json) (world : BrokerWorld) : Admitted :=
  if askedCapacity command < 0 ∨ (kMaxResearch : Int) < askedCapacity command then
    (s, .inl (errorReply (lit "parallel browser capacity must be between 0 and 4")))
  else if world.saved = false then
    (s, .inl (errorReply (lit "cannot save browser scheduling settings")))
  else
    (s.withCapacity (askedCapacity command),
      .inl ((s.withCapacity (askedCapacity command)).statusReply ((instanceOf command).getD 0)))

/-- Whether a waiter is the one of a request. -/
def isOf (command : Json) (waiter : BrokerWaiter) : Bool :=
  waiter.session = sessionOf command && waiter.request = requestOf command

/-- A request that is new. -/
def newWaiter (command : Json) (now : Int) : BrokerWaiter where
  session := sessionOf command
  request := requestOf command
  shared := jsonValueStr command (lit "browser") (lit "auto") = lit "shared" || s.capacity = 0
  polled := now

/-- The waiters when a request has asked again; none when they are too many. -/
def joinQueue (command : Json) (now : Int) : Option (List BrokerWaiter) :=
  if s.waiting.any (isOf command) then
    some (s.waiting.modify (s.waiting.findIdx (isOf command)) fun waiter =>
      { waiter with polled := now })
  else if kMaxWaiting ≤ s.waiting.length then none
  else some (s.waiting ++ [s.newWaiter command now])

/-- Whether the request is for the shared browser. -/
def wantsShared (command : Json) : Bool :=
  ((s.waiting.find? (isOf command)).map (·.shared)).getD true

/-- The waiters before the request that want what it wants. -/
def ahead (command : Json) : List BrokerWaiter :=
  (s.waiting.takeWhile fun waiter => !isOf command waiter).filter
    (·.shared = s.wantsShared command)

/-- The slots a waiter may get. -/
def eligible (shared : Bool) : List SlotId :=
  (List.finRange (kMaxResearch + 1)).filter fun slot =>
    if shared then slot.val = 0 else 1 ≤ slot.val && slot.val ≤ s.capacity

/-- Nobody has the slot. -/
def unowned (slot : SlotId) : Bool :=
  (s.slots slot).owner = [] && !(s.slots slot).busy && modeOf (s.slots slot).status ≠ lit "human"

/-- A reply that a slot is acquired. -/
def acquiredReply (slot : SlotId) (lease : Bytes) : Json :=
  Json.ofFields [(lit "ok", .bool true), (lit "acquired", .bool true), (lit "lease", .str lease),
    (lit "instance_id", slotName slot)]

/-- A reply that it has to be waited. -/
def waitReply (position : Json) (reason : Bytes) : Json :=
  Json.ofFields [(lit "ok", .bool true), (lit "acquired", .bool false),
    (lit "position", position), (lit "reason", .str reason)]

/-- The slot is given to the session. -/
def give (slot : SlotId) (session : Bytes) (world : BrokerWorld) : BrokerState :=
  { s.setSlot slot { s.slots slot with
      token := world.randomToken
      owner := session
      live := world.live session
      used := world.now } with
    waiting := s.waiting.filter fun waiter => waiter.session ≠ session
    leases := s.leases ++ [(world.randomToken, session)] }

/-- A reply with the place in the queue. -/
def laterReply (command : Json) : Json :=
  waitReply (.uint (UInt64.ofNat ((s.ahead command).length + 1))) (lit "Waiting for browser")

/-- The first waiter of its kind gets the first slot that is free. -/
def giveFirst (command : Json) (world : BrokerWorld) : Admitted :=
  if s.ahead command ≠ [] then (s, .inl (s.laterReply command))
  else
    match (s.eligible (s.wantsShared command)).find? s.unowned with
    | none => (s, .inl (s.laterReply command))
    | some slot =>
      if world.randomToken = [] then
        (s.setSlot slot { s.slots slot with token := [] },
          .inl (errorReply (lit "cannot create browser lease")))
      else (s.give slot (sessionOf command) world, .inl (acquiredReply slot world.randomToken))

/-- What `acquire` replies to the owner of a slot. -/
def ownedReply (slot : SlotId) (command : Json) : Json :=
  if modeOf (s.slots slot).status = lit "human" ∧
      jsonValueBool command (lit "allow_human") = false then
    waitReply (.int 0) (lit "Waiting for browser handback")
  else acquiredReply slot (s.slots slot).token

/-- The operations `acquire` and `cancel_acquire`. -/
def acquire (command : Json) (world : BrokerWorld) : Admitted :=
  if opaqueId (sessionOf command) = false ∨ opaqueId (requestOf command) = false then
    (s, .inl (errorReply (lit "invalid browser acquisition")))
  else if opOf command = lit "cancel_acquire" then
    ({ s with waiting := s.waiting.filter fun waiter => !isOf command waiter },
      .inl (Json.ofFields [(lit "ok", .bool true)]))
  else
    match s.owned (sessionOf command) with
    | some slot =>
      (s.setSlot slot { s.slots slot with used := world.now }, .inl (s.ownedReply slot command))
    | none =>
      match s.joinQueue command world.now with
      | none => (s, .inl (errorReply (lit "browser waiting queue is full")))
      | some waiting => giveFirst { s with waiting } command world

/-- The operation `viewer` on a slot. -/
def viewerReply (slot : SlotId) (command : Json) : Json :=
  if jsonValueBool (s.summary slot) (lit "running") = false then
    errorReply (lit "the browser is not running")
  else
    (s.summary slot).set (lit "controller")
      (.bool (!(s.slots slot).busy && modeOf (s.summary slot) = lit "human" &&
        jsonValueStr (s.summary slot) (lit "viewer") [] =
          jsonValueStr command (lit "device") []))

/-- The operations that only look. -/
def looked (command : Json) : Admitted :=
  match (s.owned (sessionOf command)).or (instanceOf command) with
  | none => (s, .inl (errorReply (lit "unknown browser instance")))
  | some slot =>
    if opOf command = lit "viewer" then (s, .inl (s.viewerReply slot command))
    else (s, .inl (s.statusReply slot))

/-- The session waits for nothing. -/
def withdraw (session : Bytes) : BrokerState :=
  { s with waiting := s.waiting.filter fun waiter => waiter.session ≠ session }

/-- The operation `release`. -/
def released (command : Json) : Admitted :=
  match s.owned (sessionOf command) with
  | none => (s.withdraw (sessionOf command), .inl (Json.ofFields [(lit "ok", .bool true)]))
  | some slot => (s.withdraw (sessionOf command), .inr slot)

/-- Any other operation goes to the slot of its session, or to the one it
names when it has no session. -/
def addressed (command : Json) : Admitted :=
  match s.owned (sessionOf command) with
  | some slot => (s, .inr slot)
  | none =>
    if sessionOf command ≠ [] then
      (s, .inl (errorReply (lit "acquire the browser before using it")))
    else
      match instanceOf command with
      | some slot => (s, .inr slot)
      | none => (s, .inl (errorReply (lit "unknown browser instance")))

/-- The operations, once the owners that are gone are dropped. -/
def dispatch (command : Json) (world : BrokerWorld) : Admitted :=
  if opOf command = lit "configure" then s.configure command world
  else if opOf command = lit "acquire" ∨ opOf command = lit "cancel_acquire" then
    s.acquire command world
  else if opOf command = lit "release" then s.released command
  else if opOf command = lit "status" ∨ opOf command = lit "agent_status" ∨
      opOf command = lit "viewer" then s.looked command
  else s.addressed command

/-- What `Execute` does under the first lock. -/
def admission (command : Json) (world : BrokerWorld) : Admitted :=
  if s.stopping then (s, .inl (errorReply (lit "browser service is stopping")))
  else if opOf command = lit "ping" then (s, .inl (Json.ofFields [(lit "ok", .bool true)]))
  else (s.prune world).dispatch command world

/-! ### Behind the lock of a slot -/

/-- Whether a command is no longer of the lease of the slot. -/
def leaseChanged (slot : BrokerSlot) (command : Json) : Bool :=
  sessionOf command ≠ [] &&
    (slot.owner ≠ sessionOf command ||
      (opOf command ≠ lit "release" || command.contains (lit "lease")) &&
        leaseOf command ≠ slot.token)

/-- The next incarnation of a browser. -/
def nextIncarnation (slot : BrokerSlot) : Nat :=
  (max (jsonValueUint64 slot.status (lit "display") 0)
    (jsonValueUint64 slot.status (lit "generation") 0) + 1) % 2 ^ 64

/-- A research browser of another lease is made new. -/
def stale (slot : SlotId) (value : BrokerSlot) (token : Bytes) : Bool :=
  slot.val ≠ 0 && value.runtimeToken ≠ token

/-- The call ends with a reply. -/
def reply (call : Nat) (result : Json) : BrokerState :=
  { s with calls := Function.update s.calls call none, replies := s.replies ++ [(call, result)] }

def goTo (call : Nat) (command : Json) (phase : BrokerPhase) : BrokerState :=
  { s with calls := Function.update s.calls call (some ⟨command, phase⟩) }

def lock (slot : SlotId) (call : Nat) : BrokerState :=
  { s with holder := Function.update s.holder slot (some call) }

def unlock (slot : SlotId) : BrokerState :=
  { s with holder := Function.update s.holder slot none }

/-- What `Execute` does under the second lock; the lock of the slot is taken,
and given back when the call ends here. -/
def grant (slot : SlotId) (call : Nat) (command : Json) : BrokerState :=
  if s.stopping then s.reply call (errorReply (lit "browser service is stopping"))
  else if leaseChanged (s.slots slot) command then
    s.reply call (errorReply (lit "browser lease changed; acquire it again and observe"))
  else
    ((s.setSlot slot { s.slots slot with busy := true, previous := [] }).lock slot call).goTo call
      command
      (.granted slot (s.slots slot).token (nextIncarnation (s.slots slot))
        (if stale slot (s.slots slot) (s.slots slot).token then [] else (s.slots slot).previous))

/-- A research browser of another lease is shut down and made new, when its
folder could be removed. -/
def renew (slot : SlotId) (call : Nat) (command : Json) (token : Bytes) (incarnation : Nat)
    (previous : Bytes) (removed : Bool) : BrokerState :=
  if stale slot (s.slots slot) token = false then s.goTo call command (.ready slot previous)
  else if removed then
    (s.setSlot slot
      { s.slots slot with runtime := { incarnation }, runtimeToken := token }).goTo call command
      (.ready slot previous)
  else
    ((s.setSlot slot
      { s.slots slot with
        runtime := (s.slots slot).runtime.ask [.shutdown]
        busy := false }).unlock slot).reply call
      (errorReply (lit "cannot reset isolated browser profile"))

/-- What a command asks of the browser, behind the release of a session that
had it before. -/
def asksOf (lease : Bytes) (command : Json) (previous : Bytes) : List BrowserAsk :=
  (if previous = [] then [] else [.release previous]) ++
    [.command lease command,
      .look (if opOf command = lit "viewer" then lit "snapshot" else lit "status")]

/-- The command is run. -/
def run (slot : SlotId) (call : Nat) (command : Json) (previous : Bytes) (result snapshot : Json) :
    BrokerState :=
  (s.setSlot slot
    { s.slots slot with
      runtime := (s.slots slot).runtime.ask (asksOf (s.slots slot).token command previous) }).goTo
    call command (.ran slot result snapshot)

/-- A release while a person has the browser is made later. -/
def mark (slot : SlotId) (call : Nat) (command result snapshot : Json) : BrokerState :=
  (s.setSlot slot
    { s.slots slot with
      releasePending := (s.slots slot).releasePending ||
        opOf command = lit "release" && modeOf snapshot = lit "human" }).goTo call command
    (.marked slot result snapshot)

def check (slot : SlotId) (call : Nat) (command result snapshot : Json) : BrokerState :=
  s.goTo call command
    (.checked slot result snapshot ((s.slots slot).releasePending && modeOf snapshot ≠ lit "human"))

/-- What the browser is asked when a release was made later. -/
def asksOfRelease (snapshot : Json) (release : Bool) : List BrowserAsk :=
  if release then [.release (sessionOf snapshot), .look (lit "snapshot")] else []

/-- Whether the session gives the slot back. -/
def givesBack (command result status : Json) (release : Bool) : Bool :=
  release || opOf command = lit "release" && modeOf status ≠ lit "human" ||
    opOf command = lit "stop" && !result.contains (lit "error")

/-- What a call returns in the end. -/
def finalReply (slot : SlotId) (command result status : Json) (release : Bool) : Json :=
  if givesBack command result status release ∧ opOf command = lit "release" then
    Json.ofFields [(lit "ok", .bool true), (lit "instance_id", slotName slot)]
  else result.set (lit "instance_id") (slotName slot)

/-- The slot when a call ends. -/
def settled (value : BrokerSlot) (snapshot status : Json) (release : Bool) (now : Int) :
    BrokerSlot :=
  { value with
    runtime := value.runtime.ask (asksOfRelease snapshot release)
    status
    busy := false
    used := now }

/-- The last section of `Execute`; `status` is the snapshot, or the one behind
a release. -/
def settle (slot : SlotId) (call : Nat) (command result snapshot status : Json) (release : Bool)
    (now : Int) : BrokerState :=
  ((s.setSlot slot
    (if givesBack command result status release then
      cleared (settled (s.slots slot) snapshot status release now)
    else settled (s.slots slot) snapshot status release now)).unlock slot).reply call
    (finalReply slot command result status release)

/-! ### Steps -/

end BrokerState

inductive BrokerEvent
  /-- `Execute` is called -/
  | call (call : Nat) (command : Json) (world : BrokerWorld)
  /-- a call goes on; the parts it does not read are left unread -/
  | proceed (call : Nat) (removed : Bool) (result snapshot : Json) (now : Int)
  /-- `Maintain` comes to a slot -/
  | maintain (slot : SlotId) (snapshot : Json)
  /-- `Shutdown`, and when it comes to a slot -/
  | stop
  | stopSlot (slot : SlotId)

namespace BrokerState

/-- `Execute` is called. -/
def called (s : BrokerState) (call : Nat) (command : Json) (world : BrokerWorld) : BrokerState :=
  match s.admission command world with
  | (s, .inl result) => s.reply call result
  | (s, .inr slot) => s.goTo call command (.waiting slot)

/-- A call goes on. -/
def proceed (s : BrokerState) (call : Nat) (removed : Bool) (result snapshot : Json) (now : Int) :
    BrokerCall → BrokerState
  | ⟨command, .waiting slot⟩ =>
    if s.holder slot = none then s.grant slot call command else s
  | ⟨command, .granted slot token incarnation previous⟩ =>
    s.renew slot call command token incarnation previous removed
  | ⟨command, .ready slot previous⟩ => s.run slot call command previous result snapshot
  | ⟨command, .ran slot result snapshot⟩ => s.mark slot call command result snapshot
  | ⟨command, .marked slot result snapshot⟩ => s.check slot call command result snapshot
  | ⟨command, .checked slot result before release⟩ =>
    s.settle slot call command result before (if release then snapshot else before) release now

def step (s : BrokerState) : BrokerEvent → BrokerState
  | .call call command world =>
    match s.calls call with
    | none => s.called call command world
    | some _ => s
  | .proceed call removed result snapshot now =>
    match s.calls call with
    | none => s
    | some at_ => s.proceed call removed result snapshot now at_
  | .maintain slot snapshot =>
    if s.holder slot = none then
      s.setSlot slot { s.slots slot with
        runtime := (s.slots slot).runtime.ask [.stopIfIdle, .look (lit "snapshot")]
        status := snapshot }
    else s
  | .stop => { s with stopping := true, waiting := [] }
  | .stopSlot slot =>
    if s.holder slot = none then
      s.setSlot slot { s.slots slot with runtime := (s.slots slot).runtime.ask [.shutdown] }
    else s

/-- The capacity that was saved. -/
def savedCapacity (settings : Json) : Nat :=
  min (jsonValueInteger (-2 ^ 31) (2 ^ 31 - 1) settings (lit "parallel_capacity") 0).toNat
    kMaxResearch

/-- A browser that the broker has as it starts. -/
def made : BrowserRuntime := { asked := [.look (lit "snapshot")] }

/-- A broker as it starts: `saved` is what the browsers tell of a session whose
browser a person has, `tokens` are new. -/
def boot (saved : SlotId → Json) (tokens : SlotId → Bytes) (live : Bytes → Bool) (settings : Json)
    (now : Int) : BrokerState where
  slots slot :=
    if sessionOf (saved slot) = [] then
      { runtime := made, status := saved slot, used := now }
    else
      { runtime := made
        status := saved slot
        owner := sessionOf (saved slot)
        token := tokens slot
        runtimeToken := tokens slot
        live := live (sessionOf (saved slot))
        used := now }
  capacity := savedCapacity settings
  leases := ((List.finRange (kMaxResearch + 1)).filter fun slot => sessionOf (saved slot) ≠ []).map
    fun slot => (tokens slot, sessionOf (saved slot))

end BrokerState

end UAgent
