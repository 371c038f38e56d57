/-
UAgent/App/Interaction.lean

Decisions a runtime waits for: approvals, questions and the other prompts a
tool puts to someone (src/app/session_worker.cc).  One thread waits in
`ReadInteraction`, and commands reply, escalate or interrupt on another.  All
of it happens under one mutex, which the waiting thread gives up while it
polls and while it logs who decided; each stretch under the mutex is one step
here, and between two of them anything may happen.

The waiting thread reads whether the decision is with the parent agent before
it polls (`Reader.polling`) and acts on what it read after, when the parent's
time is up.  Only one request is read at a time: calls ask in turn.  A
command that was seen before is answered from its receipt
(`UAgent.App.ReceiptLog`) and does not come here again.

What each interaction went through is recorded beside the state.  Main
result: `interactions_sound`.
-/
import UAgent.App.ReplayLog
import UAgent.Base.Run

namespace UAgent

open Bytes

/-! ### What is asked and answered -/

/-- `InteractionRequest`. -/
structure InteractionRequest where
  id : Bytes
  kind : Bytes := lit "text"
  prompt : Bytes := []
  initial : Bytes := []
  description : Bytes := []
  options : Json := .arr []
  questions : Json := .null
  files : Json := .arr []
deriving DecidableEq

/-- `decision_` as `ReadInteraction` builds it from the request. -/
def InteractionRequest.decision (request : InteractionRequest) : Json :=
  .ofFields [(lit "id", .str request.id), (lit "kind", .str request.kind),
    (lit "prompt", .str request.prompt), (lit "options", request.options),
    (lit "description", .str request.description), (lit "files", request.files),
    (lit "initial", .str request.initial)]

/-- What `AskPerson` announces as `approval.requested`. -/
structure ApprovalRequest where
  id : Bytes
  tool : Bytes := []
  preview : Bytes := []
  risks : Json := .arr []
  review : Bytes := []
  mandatoryHuman : Bool := false
  mandatoryReason : Bytes := []
deriving DecidableEq

/-- The event's data. -/
def ApprovalRequest.data (a : ApprovalRequest) : Json :=
  .ofFields [(lit "id", .str a.id), (lit "tool", .str a.tool), (lit "preview", .str a.preview),
    (lit "risks", a.risks), (lit "review", .str a.review),
    (lit "mandatory_human", .bool a.mandatoryHuman),
    (lit "mandatory_reason", .str a.mandatoryReason)]

/-- A command of kind `reply`.  `answers` is what `AskAnswers` makes of its
text, or the error of a file it names. -/
structure ReplyCommand where
  interactionId : Bytes
  text : Bytes := []
  reason : Bytes := []
  cancelled : Bool := false
  fromParent : Bool := false
  answers : Except Bytes Bytes := .ok []

/-- The answer a reply gives. -/
def ReplyCommand.answer (command : ReplyCommand) (ask : Bool) : Except Bytes Bytes :=
  if ask then command.answers else .ok command.text

/-! ### What an interaction went through -/

/-- The steps of one interaction that others see. -/
inductive Happening
  /-- a reply was accepted, and the answer it gave -/
  | replied (command : ReplyCommand) (answer : Bytes)
  /-- `approval.escalated` was published -/
  | escalated (id note : Bytes)
  /-- `ReadInteraction` returned -/
  | returned (answer : Bytes) (eof : Bool)

/-- An approval request, and whether it came in a person's turn. -/
structure RaisedApproval where
  request : ApprovalRequest
  personTurn : Bool

/-- One call of `ReadInteraction`. -/
structure Interaction where
  request : InteractionRequest
  /-- the approval the request is about -/
  approval : Option RaisedApproval
  /-- whether it was read in a person's turn -/
  personTurn : Bool
  happenings : List Happening := []

namespace Interaction

/-- The replies accepted. -/
def replies (i : Interaction) : List ReplyCommand :=
  i.happenings.filterMap fun
    | .replied command _ => some command
    | _ => none

/-- The times the interaction was announced as the person's. -/
def escalations (i : Interaction) : List Bytes :=
  i.happenings.filterMap fun
    | .escalated id _ => some id
    | _ => none

/-- The interaction may go to the parent: it is an approval not reserved for
a person, or a question, raised outside a person's turn. -/
def ForParent (i : Interaction) : Prop :=
  (∃ raised, i.approval = some raised ∧ raised.request.mandatoryHuman = false ∧
      raised.personTurn = false) ∨
    i.request.kind = lit "ask" ∧ i.personTurn = false

/-- What is promised of an interaction. -/
structure Sound (i : Interaction) : Prop where
  /-- at most one reply is accepted -/
  one_reply : i.replies.length ≤ 1
  /-- it names the interaction that is pending -/
  names_it : ∀ command ∈ i.replies, command.interactionId = i.request.id
  /-- the parent's is accepted only while the interaction is the parent's -/
  parent_reply : ∀ before command answer after,
    i.happenings = before ++ .replied command answer :: after → command.fromParent = true →
      i.ForParent ∧ ∀ id note, Happening.escalated id note ∉ before
  /-- the answer returned is the one accepted, or it is a cancellation -/
  answer : ∀ answer eof, Happening.returned answer eof ∈ i.happenings →
    (∃ command, Happening.replied command answer ∈ i.happenings ∧
        (eof = false → command.cancelled = false)) ∨
      answer = [] ∧ eof = true ∧ i.replies = []
  /-- it is announced as the person's at most once -/
  one_escalation : i.escalations.length ≤ 1
  /-- never after its reply -/
  escalated_first : ∀ before id note after,
    i.happenings = before ++ .escalated id note :: after →
      id = i.request.id ∧ ∀ command answer, Happening.replied command answer ∉ before

end Interaction

/-! ### The channel -/

/-- Where the thread in `ReadInteraction` is. -/
inductive Reader
  /-- no interaction is being read -/
  | away
  /-- polling without the mutex, having read whether the decision is with the
  parent -/
  | polling (routed : Bool)
  /-- logging who decided, without the mutex -/
  | noting
deriving DecidableEq

/-- What `WorkerChannel` keeps about decisions. -/
structure WorkerChannel where
  /-- `link_.has_value()`: the session is an agent -/
  link : Bool
  pending : Bytes := []
  decision : Json := .null
  approval : Json := .null
  reply : Option Bytes := none
  replyCancelled : Bool := false
  decided : Bytes := []
  personTurn : Bool := false
  closed : Bool := false
  /-- `AbortRequested()` -/
  aborted : Bool := false
  reader : Reader := .away
  /-- the request `approval` holds -/
  raised : Option RaisedApproval := none
  current : Option Interaction := none
  past : List Interaction := []

namespace WorkerChannel

/-- The interactions so far. -/
def interactions (s : WorkerChannel) : List Interaction := s.past ++ s.current.toList

def record (s : WorkerChannel) (h : Happening) : WorkerChannel :=
  { s with current := s.current.map fun i => { i with happenings := i.happenings ++ [h] } }

/-- `DeliverEvent` of `approval.requested`: an agent's approval goes to its
parent first, unless the person is there to answer it or it is reserved for
one. -/
def deliver (s : WorkerChannel) (a : ApprovalRequest) : WorkerChannel :=
  let data :=
    if s.link && !s.personTurn && !jsonValueBool a.data (lit "mandatory_human") false then
      a.data.set (lit "route") (.str (lit "parent"))
    else a.data
  { s with approval := data, raised := some ⟨a, s.personTurn⟩ }

/-- `EscalateLocked`. -/
def escalateLocked (s : WorkerChannel) (note : Bytes) : WorkerChannel :=
  let decision := (s.decision.set (lit "route") (.str (lit "human"))).set (lit "note") (.str note)
  let decision :=
    match decision.get? (lit "approval") with
    | some approval =>
      decision.set (lit "approval") (approval.set (lit "route") (.str (lit "human")))
    | none => decision
  { s with decision := decision }.record (.escalated s.pending note)

/-- `StaleLocked`. -/
def staleLocked (s : WorkerChannel) (id : Bytes) : Bool :=
  s.pending = [] || id ≠ s.pending || s.reply.isSome

/-- The decision log's line for a decision of the parent's. -/
def decidedBy (ask : Bool) (command : ReplyCommand) : Bytes :=
  (if ask then lit "parent agent answered" else lit "parent agent decided " ++ command.text) ++
    if command.reason = [] then [] else lit ": " ++ command.reason

/-- `ReplyLocked`: the channel, and the error. -/
def replyLocked (s : WorkerChannel) (command : ReplyCommand) : WorkerChannel × Bytes :=
  if s.staleLocked command.interactionId then
    (s, lit "decision is stale or already answered")
  else if command.fromParent && !routedToParent s.decision then
    (s, lit "this decision belongs to the person")
  else
    let ask : Bool := jsonValueStr s.decision (lit "kind") [] = lit "ask"
    match command.answer ask with
    | .error error => (s, error)
    | .ok answer =>
      ({ s with
          reply := some answer
          replyCancelled := command.cancelled
          decided := if command.fromParent then decidedBy ask command else s.decided }.record
        (.replied command answer), [])

/-- The command `escalate`: the channel, and the error. -/
def escalateCommand (s : WorkerChannel) (id text : Bytes) : WorkerChannel × Bytes :=
  if s.staleLocked id || !routedToParent s.decision then
    (s, lit "decision is stale or not with the parent agent")
  else (s.escalateLocked text, [])

/-- The end of `ReadInteraction`: it returns, and nothing of the interaction
is kept. -/
def finish (s : WorkerChannel) : WorkerChannel :=
  let answer := s.reply.getD []
  let eof := s.closed || s.reply.isNone || s.replyCancelled
  let s := s.record (.returned answer eof)
  { s with
    reply := none
    replyCancelled := false
    pending := []
    decision := .null
    reader := .away
    current := none
    past := s.past ++ s.current.toList }

/-- The loop's condition, and what follows until the mutex is given up. -/
def wait (s : WorkerChannel) : WorkerChannel :=
  if !s.closed && s.reply.isNone && !s.aborted then
    { s with reader := .polling (routedToParent s.decision) }
  else if s.decided ≠ [] then { s with decided := [], reader := .noting }
  else s.finish

/-- A decision with the approval it is about, when that is the one kept. -/
def withApproval (s : WorkerChannel) (id : Bytes) (decision : Json) : Json :=
  if jsonValueStr s.approval (lit "id") [] = id then
    let decision := decision.set (lit "approval") s.approval
    match s.approval.get? (lit "route") with
    | some route => decision.set (lit "route") route
    | none => decision
  else decision

/-- The decision `ReadInteraction` starts with: an agent's questions go to its
parent first, as its approvals do. -/
def newDecision (s : WorkerChannel) (request : InteractionRequest) : Json :=
  let decision := s.withApproval request.id request.decision
  if request.kind = lit "ask" then
    let decision := decision.set (lit "questions") request.questions
    if s.link && !s.personTurn then decision.set (lit "route") (.str (lit "parent")) else decision
  else decision

/-- The approval a request is about. -/
def approvalFor (s : WorkerChannel) (id : Bytes) : Option RaisedApproval :=
  s.raised.filter fun raised => raised.request.id = id

/-- `ReadInteraction`, up to its first wait. -/
def readInteraction (s : WorkerChannel) (request : InteractionRequest) : WorkerChannel :=
  { s with
    pending := request.id
    decision := s.newDecision request
    current := some ⟨request, s.approvalFor request.id, s.personTurn, []⟩ }.wait

/-! ### Steps -/

inductive ChannelEvent
  /-- `approval.requested` is delivered -/
  | deliver (a : ApprovalRequest)
  /-- a turn begins or ends, or the person writes into it -/
  | personTurn (running : Bool)
  /-- an interaction is asked for -/
  | read (request : InteractionRequest)
  /-- the waiting thread stops polling; whether the parent's time is up -/
  | wake (late : Bool)
  /-- the waiting thread has logged who decided -/
  | noted
  | reply (command : ReplyCommand)
  | escalate (id text : Bytes)
  /-- `RequestAbort`, by the command `interrupt` or by another thread -/
  | interrupt
  /-- `ClearAbort` -/
  | clearAbort
  | close

def step (s : WorkerChannel) : ChannelEvent → WorkerChannel
  | .deliver a => s.deliver a
  | .personTurn running => { s with personTurn := running }
  | .read request => if s.reader = .away then s.readInteraction request else s
  | .wake late =>
    match s.reader with
    | .polling routed =>
      (if routed && late then s.escalateLocked (lit "The parent agent did not decide in time.")
        else s).wait
    | _ => s
  | .noted => if s.reader = .noting then s.finish else s
  | .reply command => if s.closed then s else (s.replyLocked command).1
  | .escalate id text => if s.closed then s else (s.escalateCommand id text).1
  | .interrupt => { s with aborted := true }
  | .clearAbort => { s with aborted := false }
  | .close => { s with closed := true, aborted := true }

/-- When the parent's time is up, no reply is held and the decision is still
with the parent. -/
def StillWithParent (s : WorkerChannel) (e : ChannelEvent) : Prop :=
  e = .wake true → s.reader = .polling true → s.reply = none ∧ routedToParent s.decision

instance (s : WorkerChannel) : (e : ChannelEvent) → Decidable (s.StillWithParent e)
  | .wake true =>
    decidable_of_iff
      (s.reader = .polling true → s.reply = none ∧ routedToParent s.decision)
      ⟨fun h _ => h, fun h => h rfl⟩
  | .wake false | .deliver _ | .personTurn _ | .read _ | .noted | .reply _ | .escalate _ _
  | .interrupt | .clearAbort | .close => isTrue fun h => nomatch h

end WorkerChannel

/-! ### The order of what happens -/

namespace Interaction

/-- What may happen after what, in one interaction. -/
def Follows : Happening → Happening → Prop
  | .escalated _ _, .replied command _ => command.fromParent = false
  | .escalated _ _, .returned _ _ => True
  | .replied command a, .returned answer eof =>
    answer = a ∧ (eof = false → command.cancelled = false)
  | _, _ => False

/-- What may happen in an interaction at all. -/
def Fits (i : Interaction) : Happening → Prop
  | .replied command _ =>
    command.interactionId = i.request.id ∧ (command.fromParent = true → i.ForParent)
  | .escalated id _ => id = i.request.id
  | .returned answer eof => i.replies = [] → answer = [] ∧ eof = true

structure Orderly (i : Interaction) : Prop where
  order : i.happenings.Pairwise Follows
  fits : ∀ h ∈ i.happenings, i.Fits h

/-- `i` with one more happening. -/
def add (i : Interaction) (h : Happening) : Interaction :=
  { i with happenings := i.happenings ++ [h] }

variable {i : Interaction}

theorem mem_replies {command : ReplyCommand} :
    command ∈ i.replies ↔ ∃ answer, Happening.replied command answer ∈ i.happenings := by
  unfold replies
  rw [List.mem_filterMap]
  constructor
  · rintro ⟨h, hm, hc⟩
    cases h with
    | replied c answer => exact ⟨answer, by simpa [← Option.some.inj hc] using hm⟩
    | escalated => cases hc
    | returned => cases hc
  · rintro ⟨answer, hm⟩
    exact ⟨_, hm, rfl⟩

theorem mem_escalations {id : Bytes} :
    id ∈ i.escalations ↔ ∃ note, Happening.escalated id note ∈ i.happenings := by
  unfold escalations
  rw [List.mem_filterMap]
  constructor
  · rintro ⟨h, hm, hc⟩
    cases h with
    | escalated id' note => exact ⟨note, by simpa [← Option.some.inj hc] using hm⟩
    | replied => cases hc
    | returned => cases hc
  · rintro ⟨note, hm⟩
    exact ⟨_, hm, rfl⟩

/-- Of happenings that cannot follow one another there is at most one. -/
theorem Orderly.at_most_one (h : i.Orderly) {α : Type*} {f : Happening → Option α}
    (hf : ∀ a b, (f a).isSome → (f b).isSome → ¬ Follows a b) :
    (i.happenings.filterMap f).length ≤ 1 := by
  have hnone : (i.happenings.filterMap f).Pairwise fun _ _ => False := by
    refine h.order.filterMap f ?_
    intro a b hab x hx y hy
    exact hf a b (hx ▸ rfl) (hy ▸ rfl) hab
  generalize i.happenings.filterMap f = found at hnone ⊢
  rcases found with - | ⟨x, - | ⟨y, l⟩⟩
  · exact Nat.zero_le 1
  · exact Nat.le_refl 1
  · exact ((List.pairwise_cons.mp hnone).1 y List.mem_cons_self).elim

/-- One of two happenings came first. -/
theorem Orderly.either (h : i.Orderly) {a b : Happening} (ha : a ∈ i.happenings)
    (hb : b ∈ i.happenings) (hne : a ≠ b) : Follows a b ∨ Follows b a := by
  have hboth : i.happenings.Pairwise fun a b => Follows a b ∨ Follows b a := h.order.imp Or.inl
  have : Std.Symm fun a b => Follows a b ∨ Follows b a := ⟨fun _ _ => Or.symm⟩
  exact hboth.forall ha hb hne

theorem Orderly.reply_unique (h : i.Orderly) {c d : ReplyCommand} {a b : Bytes}
    (hc : Happening.replied c a ∈ i.happenings) (hd : Happening.replied d b ∈ i.happenings) :
    c = d ∧ a = b := by
  by_contra hne
  exact (h.either hc hd fun he => hne (by simpa using he)).elim id id

/-- Orderly interactions keep every promise. -/
theorem Orderly.sound (h : i.Orderly) : i.Sound where
  one_reply := by
    apply h.at_most_one
    rintro (_ | _ | _) (_ | _ | _) ha hb hab <;> first | exact hab | cases ha; done | cases hb
  names_it command hm := by
    rcases mem_replies.mp hm with ⟨answer, hm⟩
    exact (h.fits _ hm).1
  parent_reply before command answer after heq hp := by
    have hm : Happening.replied command answer ∈ i.happenings := by simp [heq]
    refine ⟨(h.fits _ hm).2 hp, fun id note hb => ?_⟩
    have horder := h.order
    rw [heq] at horder
    have hf : command.fromParent = false :=
      (List.pairwise_append.mp horder).2.2 _ hb _ List.mem_cons_self
    rw [hp] at hf
    cases hf
  answer answer eof hm := by
    rcases hr : i.replies with - | ⟨command, rest⟩
    · exact Or.inr ⟨((h.fits _ hm) hr).1, ((h.fits _ hm) hr).2, rfl⟩
    rcases mem_replies.mp (hr ▸ List.mem_cons_self : command ∈ i.replies) with ⟨a, hc⟩
    -- nothing comes after a return
    rcases h.either hc hm (by simp) with ⟨rfl, hcancel⟩ | hf
    · exact Or.inl ⟨command, hc, hcancel⟩
    · exact hf.elim
  one_escalation := by
    apply h.at_most_one
    rintro (_ | _ | _) (_ | _ | _) ha hb hab <;> first | exact hab | cases ha; done | cases hb
  escalated_first before id note after heq := by
    have hm : Happening.escalated id note ∈ i.happenings := by simp [heq]
    refine ⟨h.fits _ hm, fun command answer hb => ?_⟩
    have horder := h.order
    rw [heq] at horder
    exact (List.pairwise_append.mp horder).2.2 _ hb _ List.mem_cons_self

/-- One more happening keeps the order, if it may come after what there is. -/
theorem Orderly.add (h : i.Orderly) {e : Happening} (follows : ∀ a ∈ i.happenings, Follows a e)
    (fits : i.Fits e) : (i.add e).Orderly where
  order := by
    show (i.happenings ++ [e]).Pairwise Follows
    rw [List.pairwise_append]
    refine ⟨h.order, List.pairwise_singleton _ _, fun a ha b hb => ?_⟩
    rw [List.mem_singleton.mp hb]
    exact follows a ha
  fits := by
    have keep : ∀ a, i.Fits a → (i.add e).Fits a := by
      intro a ha
      cases a with
      | replied | escalated => exact ha
      | returned answer eof =>
        intro hnone
        apply ha
        have : i.replies ++ _ = [] := (List.filterMap_append ..).symm.trans hnone
        exact (List.append_eq_nil_iff.mp this).1
    intro a ha
    rcases List.mem_append.mp ha with ha | ha
    · exact keep a (h.fits a ha)
    · rw [List.mem_singleton.mp ha]
      exact keep e fits

end Interaction

/-! ### The invariant -/

namespace WorkerChannel

/-- What the channel keeps of the approval raised last. -/
def keptApproval (link : Bool) : Option RaisedApproval → Json
  | none => .null
  | some raised =>
    if link && !raised.personTurn && !raised.request.mandatoryHuman then
      raised.request.data.set (lit "route") (.str (lit "parent"))
    else raised.request.data

/-- The thread is in `ReadInteraction` for `i`. -/
structure Waiting (s : WorkerChannel) (i : Interaction) : Prop where
  current : s.current = some i
  pending : s.pending = i.request.id
  orderly : i.Orderly
  /-- it has not returned -/
  reading : ∀ answer eof, Happening.returned answer eof ∉ i.happenings
  /-- a decision that is still with the parent was raised for it, and nobody
  escalated it -/
  routed : routedToParent s.decision → i.ForParent ∧ i.escalations = []
  /-- the reply held is the one accepted -/
  held : match s.reply with
    | none => i.replies = []
    | some answer => ∃ command, Happening.replied command answer ∈ i.happenings ∧
        command.cancelled = s.replyCancelled

structure Inv (s : WorkerChannel) : Prop where
  past : ∀ i ∈ s.past, i.Orderly
  approval : s.approval = keptApproval s.link s.raised
  away : s.reader = .away →
    s.current = none ∧ s.pending = [] ∧ s.reply = none ∧ s.replyCancelled = false
  reading : s.reader ≠ .away → ∃ i, s.Waiting i

variable {s : WorkerChannel}

theorem deliver_inv (h : s.Inv) (a : ApprovalRequest) : (s.deliver a).Inv where
  past := h.past
  approval := rfl
  away := h.away
  reading hr := by
    rcases h.reading hr with ⟨i, hi⟩
    exact ⟨i, hi.current, hi.pending, hi.orderly, hi.reading, hi.routed, hi.held⟩

theorem routedToParent_eq_false {decision : Json}
    (h : decision.get? (lit "route") ≠ some (.str (lit "parent"))) :
    routedToParent decision = false := by
  unfold routedToParent jsonValueStr
  cases hd : decision.get? (lit "route") with
  | none => rfl
  | some route =>
    cases route with
    | str text => exact decide_eq_false fun he => h (by rw [hd]; exact congrArg _ (congrArg _ he))
    | _ => rfl

/-- An escalated decision is no longer with the parent. -/
theorem routedToParent_escalateLocked (s : WorkerChannel) (note : Bytes) :
    routedToParent (s.escalateLocked note).decision = false := by
  have hset : ((s.decision.set (lit "route") (.str (lit "human"))).set (lit "note")
      (.str note)).get? (lit "route") ≠ some (.str (lit "parent")) := by
    rw [Json.get?_set_ne _ _ (by decide)]
    cases s.decision with
    | obj fields => rw [Json.set_obj, Json.get?_obj, Assoc.lookup_insert_self]; decide
    | null => decide
    | _ => intro hno; cases hno
  have hroute : (s.escalateLocked note).decision.get? (lit "route") ≠
      some (.str (lit "parent")) := by
    unfold escalateLocked record
    dsimp only
    split
    · rwa [Json.get?_set_ne _ _ (by decide)]
    · exact hset
  exact routedToParent_eq_false hroute

theorem Waiting.current_record {i : Interaction} (h : s.Waiting i) (e : Happening) :
    (s.record e).current = some (i.add e) := by
  show s.current.map _ = _
  rw [h.current]
  rfl

theorem Waiting.replies_eq_nil {i : Interaction} (h : s.Waiting i) (hreply : s.reply = none) :
    i.replies = [] := by
  have := h.held
  rwa [hreply] at this

/-- What `EscalateLocked` does to an interaction that has neither a reply nor
an escalation. -/
theorem Waiting.escalateLocked {i : Interaction} (h : s.Waiting i) (note : Bytes)
    (hreply : s.reply = none) (hrouted : routedToParent s.decision) :
    (s.escalateLocked note).Waiting (i.add (.escalated s.pending note)) := by
  have hnone : i.happenings = [] := by
    have hreplies := h.replies_eq_nil hreply
    have hescalations := (h.routed hrouted).2
    rw [List.eq_nil_iff_forall_not_mem]
    intro e he
    cases e with
    | replied c answer =>
      exact List.not_mem_nil (hreplies ▸ Interaction.mem_replies.mpr ⟨answer, he⟩)
    | escalated id text =>
      exact List.not_mem_nil (hescalations ▸ Interaction.mem_escalations.mpr ⟨text, he⟩)
    | returned answer eof => exact h.reading _ _ he
  refine ⟨?_, h.pending, ?_, ?_, ?_, ?_⟩
  · exact h.current_record _
  · apply h.orderly.add
    · intro a ha
      rw [hnone] at ha
      cases ha
    · exact h.pending
  · intro answer eof hm
    have : Happening.returned answer eof ∈ i.happenings ++ [.escalated s.pending note] := hm
    simp [hnone] at this
  · intro hr
    rw [routedToParent_escalateLocked] at hr
    cases hr
  · show match s.reply with | none => _ | some _ => _
    rw [hreply]
    show (i.happenings ++ [Happening.escalated s.pending note]).filterMap _ = []
    rw [hnone]
    rfl

/-- What `ReplyLocked` does: nothing, or it takes the reply. -/
theorem replyLocked_cases (s : WorkerChannel) (command : ReplyCommand) :
    (s.replyLocked command).1 = s ∨
      ∃ answer decided, s.reply = none ∧ command.interactionId = s.pending ∧ s.pending ≠ [] ∧
        (command.fromParent = true → routedToParent s.decision) ∧
        (s.replyLocked command).1 =
          { s with
            reply := some answer
            replyCancelled := command.cancelled
            decided := decided }.record (.replied command answer) := by
  unfold replyLocked
  split
  · exact Or.inl rfl
  rename_i hstale
  split
  · exact Or.inl rfl
  rename_i hparent
  dsimp only
  generalize (decide (jsonValueStr s.decision (lit "kind") [] = lit "ask")) = ask
  rcases command.answer ask with error | answer
  · exact Or.inl rfl
  simp only [staleLocked, Bool.or_eq_true, decide_eq_true_eq, not_or, not_not,
    Bool.not_eq_true, Option.isSome_eq_false_iff, Option.isNone_iff_eq_none] at hstale
  refine Or.inr ⟨_, _, hstale.2, hstale.1.2, hstale.1.1, fun hp => ?_, rfl⟩
  simpa [hp] using hparent

/-- What the command `escalate` does: nothing, or it escalates a decision
that is with the parent and has no reply. -/
theorem escalateCommand_cases (s : WorkerChannel) (id text : Bytes) :
    (s.escalateCommand id text).1 = s ∨
      s.reply = none ∧ s.pending ≠ [] ∧ routedToParent s.decision ∧
        (s.escalateCommand id text).1 = s.escalateLocked text := by
  unfold escalateCommand
  split
  · exact Or.inl rfl
  rename_i h
  simp only [staleLocked, Bool.or_eq_true, decide_eq_true_eq, not_or, not_not, Bool.not_eq_true,
    Option.isSome_eq_false_iff, Option.isNone_iff_eq_none, Bool.not_eq_false'] at h
  exact Or.inr ⟨h.1.2, h.1.1.1, h.2, rfl⟩

/-- A reply that is taken becomes the interaction's only one. -/
theorem Waiting.replied {i : Interaction} (h : s.Waiting i) {command : ReplyCommand}
    {answer decided : Bytes} (hreply : s.reply = none) (hid : command.interactionId = s.pending)
    (hparent : command.fromParent = true → routedToParent s.decision) :
    ({ s with
        reply := some answer
        replyCancelled := command.cancelled
        decided := decided }.record (.replied command answer)).Waiting
      (i.add (.replied command answer)) where
  current := h.current_record _
  pending := h.pending
  orderly := by
    apply h.orderly.add
    · intro a ha
      cases a with
      | replied c text =>
        have := Interaction.mem_replies.mpr ⟨text, ha⟩
        rw [h.replies_eq_nil hreply] at this
        cases this
      | escalated id note =>
        -- an escalated decision is not with the parent, so the reply is the person's
        show command.fromParent = false
        apply Bool.eq_false_iff.mpr
        intro hp
        have := Interaction.mem_escalations.mpr ⟨note, ha⟩
        rw [(h.routed (hparent hp)).2] at this
        cases this
      | returned text eof => exact absurd ha (h.reading text eof)
    · exact ⟨hid.trans h.pending, fun hp => (h.routed (hparent hp)).1⟩
  reading text eof hm := by
    rcases List.mem_append.mp hm with hm | hm
    · exact h.reading text eof hm
    · cases List.mem_singleton.mp hm
  routed hr := by
    refine ⟨(h.routed hr).1, ?_⟩
    show (i.happenings ++ [Happening.replied command answer]).filterMap _ = []
    rw [List.filterMap_append]
    exact List.append_eq_nil_iff.mpr ⟨(h.routed hr).2, rfl⟩
  held := ⟨command, List.mem_append_right _ (List.mem_singleton.mpr rfl), rfl⟩

/-- The interaction returns the reply it holds. -/
theorem Waiting.returned {i : Interaction} (h : s.Waiting i) :
    (i.add (.returned (s.reply.getD [])
      (s.closed || s.reply.isNone || s.replyCancelled))).Orderly := by
  apply h.orderly.add
  · intro a ha
    cases a with
    | escalated => trivial
    | returned text eof => exact absurd ha (h.reading text eof)
    | replied command answer =>
      have hmem : command ∈ i.replies := Interaction.mem_replies.mpr ⟨answer, ha⟩
      have hheld := h.held
      cases hreply : s.reply with
      | none =>
        rw [h.replies_eq_nil hreply] at hmem
        cases hmem
      | some text =>
        rw [hreply] at hheld
        rcases hheld with ⟨c, hc, hcancel⟩
        rcases h.orderly.reply_unique ha hc with ⟨rfl, rfl⟩
        refine ⟨rfl, fun heof => ?_⟩
        rw [hcancel]
        exact (Bool.or_eq_false_iff.mp heof).2
  · intro hnone
    cases hreply : s.reply with
    | none => simp
    | some text =>
      have hheld := h.held
      rw [hreply] at hheld
      rcases hheld with ⟨c, hc, -⟩
      have := Interaction.mem_replies.mpr ⟨text, hc⟩
      rw [hnone] at this
      cases this

theorem finish_inv {i : Interaction} (past : ∀ i ∈ s.past, i.Orderly)
    (approval : s.approval = keptApproval s.link s.raised) (h : s.Waiting i) : s.finish.Inv where
  past := by
    intro j hj
    rcases List.mem_append.mp hj with hj | hj
    · exact past j hj
    · rw [h.current_record] at hj
      rw [List.mem_singleton.mp hj]
      exact h.returned
  approval := approval
  away _ := ⟨rfl, rfl, rfl, rfl⟩
  reading hr := absurd rfl hr

/-- What follows a stretch under the mutex keeps the invariant. -/
theorem wait_inv {i : Interaction} (past : ∀ i ∈ s.past, i.Orderly)
    (approval : s.approval = keptApproval s.link s.raised) (h : s.Waiting i) : s.wait.Inv := by
  unfold wait
  split
  · refine ⟨past, approval, fun hr => (Reader.noConfusion hr), fun _ => ⟨i, ?_⟩⟩
    exact ⟨h.current, h.pending, h.orderly, h.reading, h.routed, h.held⟩
  split
  · refine ⟨past, approval, fun hr => (Reader.noConfusion hr), fun _ => ⟨i, ?_⟩⟩
    exact ⟨h.current, h.pending, h.orderly, h.reading, h.routed, h.held⟩
  · exact finish_inv past approval h

/-- An approval is the parent's only when it is raised for it. -/
theorem route_keptApproval {link : Bool} {raised : Option RaisedApproval} {route : Json}
    (h : (keptApproval link raised).get? (lit "route") = some route) :
    ∃ r, raised = some r ∧ r.request.mandatoryHuman = false ∧ r.personTurn = false := by
  cases raised with
  | none => cases h
  | some r =>
    refine ⟨r, rfl, ?_⟩
    by_cases hr : link && !r.personTurn && !r.request.mandatoryHuman
    · simp only [Bool.and_eq_true, Bool.not_eq_true'] at hr
      exact ⟨hr.2, hr.1.2⟩
    · rw [keptApproval, if_neg hr] at h
      cases h

theorem id_keptApproval (link : Bool) (r : RaisedApproval) :
    jsonValueStr (keptApproval link (some r)) (lit "id") [] = r.request.id := by
  by_cases hr : link && !r.personTurn && !r.request.mandatoryHuman
  · rw [keptApproval, if_pos hr]
    rfl
  · rw [keptApproval, if_neg hr]
    rfl

/-- A decision starts out with the parent only when it is the parent's. -/
theorem routedToParent_newDecision {request : InteractionRequest}
    (approval : s.approval = keptApproval s.link s.raised)
    (h : routedToParent (s.newDecision request)) :
    Interaction.ForParent ⟨request, s.approvalFor request.id, s.personTurn, []⟩ := by
  by_cases hask : request.kind = lit "ask" ∧ s.personTurn = false
  · exact Or.inr hask
  left
  -- the route, if any, is the approval's
  have hroute : (s.withApproval request.id request.decision).get? (lit "route") =
      some (.str (lit "parent")) := by
    by_contra hno
    have : routedToParent (s.newDecision request) = false := by
      apply routedToParent_eq_false
      unfold newDecision
      dsimp only
      split
      · rename_i hkind
        have hperson : s.personTurn = true := by
          by_contra hp
          exact hask ⟨hkind, Bool.eq_false_iff.mpr hp⟩
        rw [hperson, Bool.not_true, Bool.and_false, if_neg Bool.false_ne_true,
          Json.get?_set_ne _ _ (by decide)]
        exact hno
      · exact hno
    rw [this] at h
    cases h
  unfold withApproval at hroute
  split at hroute
  · rename_i hid
    cases hr : s.approval.get? (lit "route") with
    | none =>
      rw [hr] at hroute
      rw [Json.get?_set_ne _ _ (by decide)] at hroute
      cases hroute
    | some route =>
      rw [approval] at hr hid
      rcases route_keptApproval hr with ⟨r, hraised, hmandatory, hperson⟩
      rw [hraised, id_keptApproval] at hid
      refine ⟨r, ?_, hmandatory, hperson⟩
      show s.raised.filter _ = some r
      rw [hraised]
      exact Option.filter_some_pos (decide_eq_true hid)
  · cases hroute

theorem readInteraction_inv (h : s.Inv) (hr : s.reader = .away) (request : InteractionRequest) :
    (s.readInteraction request).Inv := by
  rcases h.away hr with ⟨-, -, hreply, -⟩
  refine wait_inv (i := ⟨request, s.approvalFor request.id, s.personTurn, []⟩) h.past h.approval
    ⟨rfl, rfl, ⟨List.Pairwise.nil, fun _ he => (List.not_mem_nil he).elim⟩,
      fun _ _ => List.not_mem_nil, fun hrouted => ⟨?_, rfl⟩, ?_⟩
  · exact routedToParent_newDecision h.approval hrouted
  · show match s.reply with | none => _ | some _ => _
    rw [hreply]
    rfl

theorem reply_inv (h : s.Inv) (command : ReplyCommand) : (s.replyLocked command).1.Inv := by
  rcases s.replyLocked_cases command with heq | ⟨answer, decided, hreply, hid, hpending, hp, heq⟩
  · rwa [heq]
  rw [heq]
  have hr : s.reader ≠ .away := fun hr => hpending (h.away hr).2.1
  rcases h.reading hr with ⟨i, hi⟩
  exact ⟨h.past, h.approval, fun ha => absurd ha hr, fun _ => ⟨_, hi.replied hreply hid hp⟩⟩

theorem escalate_inv (h : s.Inv) (id text : Bytes) : (s.escalateCommand id text).1.Inv := by
  rcases s.escalateCommand_cases id text with heq | ⟨hreply, hpending, hrouted, heq⟩
  · rwa [heq]
  rw [heq]
  have hr : s.reader ≠ .away := fun hr => hpending (h.away hr).2.1
  rcases h.reading hr with ⟨i, hi⟩
  exact ⟨h.past, h.approval, fun ha => absurd ha hr,
    fun _ => ⟨_, hi.escalateLocked text hreply hrouted⟩⟩

/-- The waiting thread wakes: when the parent's time is up and the decision
is still the parent's, it is escalated. -/
theorem wake_inv (h : s.Inv) (late : Bool) (hok : s.StillWithParent (.wake late)) :
    (s.step (.wake late)).Inv := by
  show (match s.reader with | .polling _ => _ | _ => _ : WorkerChannel).Inv
  rcases hr : s.reader with - | routed | -
  · exact h
  · rcases h.reading (by simp [hr]) with ⟨i, hi⟩
    by_cases hlate : (routed && late) = true
    · obtain ⟨rfl, rfl⟩ := Bool.and_eq_true_iff.mp hlate
      rcases hok rfl hr with ⟨hreply, hrouted⟩
      exact wait_inv h.past h.approval (hi.escalateLocked _ hreply hrouted)
    · show (if (routed && late) = true then _ else s : WorkerChannel).wait.Inv
      rw [if_neg hlate]
      exact wait_inv h.past h.approval hi
  · exact h

/-- One step keeps the invariant. -/
theorem step_inv (h : s.Inv) (e : ChannelEvent) (hok : s.StillWithParent e) : (s.step e).Inv := by
  -- steps that leave the interaction alone
  have keep : ∀ t : WorkerChannel, t.past = s.past → t.approval = keptApproval t.link t.raised →
      t.reader = s.reader → t.current = s.current → t.pending = s.pending →
      t.decision = s.decision → t.reply = s.reply → t.replyCancelled = s.replyCancelled → t.Inv := by
    intro t hpast happroval hreader hcurrent hpending hdecision hreply hcancelled
    refine ⟨hpast ▸ h.past, happroval, fun hr => ?_, fun hr => ?_⟩
    · rw [hcurrent, hpending, hreply, hcancelled]
      exact h.away (hreader ▸ hr)
    · rcases h.reading (hreader ▸ hr) with ⟨i, hi⟩
      refine ⟨i, hcurrent.trans hi.current, hpending.trans hi.pending, hi.orderly, hi.reading, ?_, ?_⟩
      · rw [hdecision]
        exact hi.routed
      · rw [hreply, hcancelled]
        exact hi.held
  cases e with
  | deliver a => exact deliver_inv h a
  | personTurn running => exact keep _ rfl h.approval rfl rfl rfl rfl rfl rfl
  | read request =>
    show (if s.reader = .away then s.readInteraction request else s).Inv
    split
    · exact readInteraction_inv h ‹_› request
    · exact h
  | wake late => exact wake_inv h late hok
  | noted =>
    show (if s.reader = .noting then s.finish else s).Inv
    split
    · rename_i hr
      rcases h.reading (by simp [hr]) with ⟨i, hi⟩
      exact finish_inv h.past h.approval hi
    · exact h
  | reply command =>
    show (if s.closed = true then s else (s.replyLocked command).1).Inv
    split
    · exact h
    · exact reply_inv h command
  | escalate id text =>
    show (if s.closed = true then s else (s.escalateCommand id text).1).Inv
    split
    · exact h
    · exact escalate_inv h id text
  | interrupt => exact keep _ rfl h.approval rfl rfl rfl rfl rfl rfl
  | clearAbort => exact keep _ rfl h.approval rfl rfl rfl rfl rfl rfl
  | close => exact keep _ rfl h.approval rfl rfl rfl rfl rfl rfl

theorem start_inv (link : Bool) : ({ link := link } : WorkerChannel).Inv where
  past _ hi := (List.not_mem_nil hi).elim
  approval := rfl
  away _ := ⟨rfl, rfl, rfl, rfl⟩
  reading hr := absurd rfl hr

/-- Every interaction a run has seen is orderly. -/
theorem Inv.orderly (h : s.Inv) : ∀ i ∈ s.interactions, i.Orderly := by
  intro i hi
  rcases List.mem_append.mp hi with hi | hi
  · exact h.past i hi
  · have hcurrent := Option.mem_toList.mp hi
    have hr : s.reader ≠ .away := by
      intro hr
      rw [(h.away hr).1] at hcurrent
      cases hcurrent
    rcases h.reading hr with ⟨j, hj⟩
    rw [hj.current] at hcurrent
    exact Option.some.inj hcurrent ▸ hj.orderly

/-- **Interactions**: in every run in which the parent's time runs out only on
a decision that has no reply and is still the parent's, at most one reply is
accepted for each interaction and it names it, the parent's only while the
interaction is the parent's, the answer returned is the one accepted, and the
interaction is announced as the person's at most once and not after its
reply. -/
theorem interactions_sound {link : Bool}
    (h : Run step StillWithParent { link := link } s) : ∀ i ∈ s.interactions, i.Sound := by
  have hinv : s.Inv := h.invariant (start_inv link) fun s e hs hok => step_inv hs e hok
  exact fun i hi => (hinv.orderly i hi).sound

/-- An approval the parent lets pass: it is escalated, and the person allows
it. -/
def escalatedRun : List ChannelEvent :=
  [.deliver { id := lit "approval-1", tool := lit "bash" },
    .read { id := lit "approval-1", kind := lit "approval" }, .wake true,
    .reply { interactionId := lit "approval-1", text := lit "y" }, .wake false]

theorem interactions_sound_escalated :
    (escalatedRun.foldl step { link := true }).interactions.map (·.escalations) =
        [[lit "approval-1"]] ∧
      ∀ i ∈ (escalatedRun.foldl step { link := true }).interactions, i.Sound :=
  ⟨by decide, interactions_sound (Run.of_allOk (by decide))⟩

/-- A question the person answers while its thread polls, at the moment the
parent's time is up. -/
def answeredLate : List ChannelEvent :=
  [.read { id := lit "interaction-1", kind := lit "ask" },
    .reply { interactionId := lit "interaction-1", answers := .ok (lit "[]") }, .wake true]

/-- The thread escalates the question it has the answer to. -/
theorem late_wake_escalates :
    ¬ ∀ (link : Bool) (s : WorkerChannel), Run step (fun _ _ => True) { link := link } s →
      ∀ i ∈ s.interactions, i.Sound := by
  intro h
  have hrun : Run step (fun _ _ => True) { link := true }
      (answeredLate.foldl step { link := true }) :=
    Run.of_allOk (Run.allOk_of_forall (fun _ _ _ => trivial) _)
  have hsound := h true _ hrun _ (List.mem_singleton.mpr rfl)
  exact (hsound.escalated_first [.replied _ _] _ _ _ rfl).2 _ _ List.mem_cons_self

end WorkerChannel

end UAgent
