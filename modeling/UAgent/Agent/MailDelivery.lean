/-
UAgent/Agent/MailDelivery.lean

Mail on its way into a saved conversation (src/agent/mail_delivery.cc and the
mail half of `Agent::Save` and `Agent::Load` in src/agent/agent.cc).

A mail is in up to three places: the mailbox on disk, the runtime's memory
(queued, or already part of the conversation), and the saved record.  The
runtime delivers what it takes, remembers the latest ids so that a mail
delivered again is recognised, and acknowledges a mail once the record that
holds its text is saved.  A crash loses the memory at any point between two
file operations; the next runtime loads the record and recovers what was
taken.

`MailWorld.step` is that system, with senders, the clock and crashes.  Main
result: `mail_kept_and_entered_once`.  It holds in the runs in which no mail
in the mailbox is named with another's id at its end, since `AckMail` finds
files by the end of their names.

The conversation is modelled by the mail that entered it; who may send to
whom (`MailAllowed`) is a parameter of each delivery.
-/
import UAgent.Base.Run
import UAgent.Core.Mailbox
import Mathlib.Data.List.Nodup
import Mathlib.Data.List.Perm.Basic

namespace UAgent

open Bytes

/-! ### The runtime's side -/

/-- How many delivered ids a runtime remembers. -/
def kDeliveredIds : Nat := 256

/-- A mail's text as it arrives in the conversation. -/
structure Arrival where
  mail : Bytes
  text : Bytes
deriving DecidableEq

/-- The mail half of a saved record.  `log` is no part of the file: it is the
history of the deliveries the record goes back to, newest first. -/
structure MailRecord where
  transcript : List Arrival
  delivered : List Bytes
  log : List Bytes
deriving DecidableEq

/-- The mail half of a running `Agent`: what the conversation holds, what is
queued for it (`SteeringState`), and the id lists `arriving_mail_`,
`unacked_mail_` and `delivered_mail_`.  `log` is the history of deliveries. -/
structure MailProcess where
  transcript : List Arrival
  queue : List Arrival
  arriving : List Bytes
  unacked : List Bytes
  delivered : List Bytes
  log : List Bytes
deriving DecidableEq

/-- `Agent::Load`: nothing is under way in a new runtime. -/
def loadMail (record : MailRecord) : MailProcess where
  transcript := record.transcript
  queue := []
  arriving := []
  unacked := []
  delivered := record.delivered
  log := record.log

/-- `Agent::Arrive`, for a mail. -/
def MailProcess.arrive (p : MailProcess) (mail text : Bytes) : MailProcess :=
  { p with
    arriving := if mail = [] then p.arriving else p.arriving ++ [mail]
    queue := p.queue ++ [⟨mail, text⟩] }

/-- One round of the loop of `DeliverMail`: what it acknowledges at once, and
the runtime after it. -/
def deliverOne (p : MailProcess) (cur : MailFolder) (mail : Mail) : List MailOp × MailProcess :=
  let seen := mail.id ∈ p.delivered
  let text := mailText mail
  -- Mail that changes nothing has no save to be acknowledged by.
  if (text = [] ∨ seen) ∧ mail.id ∉ p.unacked then (ackMail cur [mail.id], p)
  else
    let p := { p with unacked := p.unacked ++ [mail.id] }
    if seen then ([], p)
    else
      let delivered := p.delivered ++ [mail.id]
      let delivered := if delivered.length > kDeliveredIds then delivered.tail else delivered
      ([], { p with delivered := delivered, log := mail.id :: p.log }.arrive mail.id text)

/-- The loop of `DeliverMail` over the mail taken. -/
def deliverLoop : MailProcess → Mailbox → List Mail → List MailOp × MailProcess
  | p, _, [] => ([], p)
  | p, box, mail :: taken =>
    let (ops, p) := deliverOne p box.cur mail
    let (rest, p) := deliverLoop p (ops.foldl Mailbox.apply box) taken
    (ops ++ rest, p)

/-- `Agent::DeliverMail`. -/
def deliverMail (p : MailProcess) (box : Mailbox) (now : Int) (allowed : Mail → Bool) :
    List MailOp × MailProcess :=
  let (ops, taken) := takeMail box now allowed
  let (rest, p) := deliverLoop p (ops.foldl Mailbox.apply box) taken
  (ops ++ rest, p)

/-- `PushUserInput` of a queued arrival: the queue's message at `i` becomes
part of the conversation. -/
def MailProcess.enter (p : MailProcess) (i : Nat) : MailProcess :=
  match p.queue[i]? with
  | some arrival =>
    { p with
      transcript := p.transcript ++ [arrival]
      queue := p.queue.eraseIdx i
      arriving := p.arriving.filter (· ≠ arrival.mail) }
  | none => p

/-- The unacknowledged mail whose text the conversation has. -/
def MailProcess.waiting (p : MailProcess) : List Bytes := p.unacked.filter (· ∉ p.arriving)

/-- The record `Agent::Save` writes. -/
def MailProcess.record (p : MailProcess) : MailRecord where
  transcript := p.transcript
  delivered := p.delivered.filter (· ∉ p.arriving)
  log := p.log

/-- `Agent::Save` after the record is written: what it acknowledges, and the
runtime after it. -/
def MailProcess.saved (p : MailProcess) (cur : MailFolder) : List MailOp × MailProcess :=
  (ackMail cur p.waiting, { p with unacked := p.unacked.filter (· ∈ p.arriving) })

/-! ### The system -/

/-- A runtime, its record and its mailbox, with the clock and the history of
what senders committed. -/
structure MailWorld where
  box : Mailbox
  record : MailRecord
  process : Option MailProcess
  now : Int
  accepted : List (Bytes × Mail)
deriving DecidableEq

/-- What a runtime does to the disk. -/
inductive MailCall
  | take (accept : Mail → Bool)
  | deliver (allowed : Mail → Bool)
  | save

/-- What happens to the system.  `crash` cuts a call after some of its file
operations; `start` loads the record and recovers what was taken, and
`startCrash` cuts the recovery. -/
inductive MailEvent
  | clock (passed : Nat)
  | send (mail : Mail) (rateLimited : Bool) (context : SendContext)
  | call (call : MailCall)
  | enter (i : Nat)
  | crash (call : MailCall) (after : Nat)
  | start
  | startCrash (after : Nat)

/-- The record written by a call, when it is a save. -/
def MailCall.writes (call : MailCall) (p : MailProcess) : Option MailRecord :=
  match call with
  | .save => some p.record
  | _ => none

/-- The mailbox operations of a call, and the runtime after it.  A save
writes its record before the first of them. -/
def MailCall.run (call : MailCall) (p : MailProcess) (box : Mailbox) (now : Int) :
    List MailOp × MailProcess :=
  match call with
  | .take accept => ((takeMail box now accept).1, p)
  | .deliver allowed => deliverMail p box now allowed
  | .save => p.saved box.cur

namespace MailWorld

variable [DoubleText]

/-- One event. -/
def step (w : MailWorld) : MailEvent → MailWorld
  | .clock passed => { w with now := w.now + passed }
  | .send mail rateLimited context =>
    let (ops, result) := sendMail w.box mail rateLimited context
    { w with
      box := ops.foldl Mailbox.apply w.box
      accepted := match result with
        | .committed name sent => (name, sent) :: w.accepted
        | _ => w.accepted }
  | .call call =>
    match w.process with
    | some p =>
      let (ops, p') := call.run p w.box w.now
      { w with
        box := ops.foldl Mailbox.apply w.box
        record := (call.writes p).getD w.record
        process := some p' }
    | none => w
  | .enter i => { w with process := w.process.map (·.enter i) }
  | .crash call after =>
    match w.process with
    | some p =>
      -- Before the record is written nothing has happened.
      match (call.writes p), after with
      | some _, 0 => { w with process := none }
      | some record, after + 1 =>
        { w with
          box := ((call.run p w.box w.now).1.take after).foldl Mailbox.apply w.box
          record := record
          process := none }
      | none, after =>
        { w with
          box := ((call.run p w.box w.now).1.take after).foldl Mailbox.apply w.box
          process := none }
    | none => w
  | .start =>
    match w.process with
    | some _ => w
    | none =>
      { w with
        box := (recoverMail w.box.cur).foldl Mailbox.apply w.box
        process := some (loadMail w.record) }
  | .startCrash after =>
    match w.process with
    | some _ => w
    | none =>
      { w with box := ((recoverMail w.box.cur).take after).foldl Mailbox.apply w.box }

end MailWorld

/-- A conversation nothing was sent to yet. -/
def MailWorld.initial : MailWorld := ⟨⟨[], []⟩, ⟨[], [], []⟩, none, 0, []⟩

/-! ### What is kept, and under which condition -/

/-- The saved conversation has what the mail brings; blank mail brings
nothing. -/
def Settled (record : MailRecord) (mail : Mail) : Prop :=
  mailText mail = [] ∨ ⟨mail.id, mailText mail⟩ ∈ record.transcript

/-- Every mail a sender committed is in the mailbox or in the saved
conversation, unless it has expired. -/
def MailWorld.Kept (w : MailWorld) : Prop :=
  ∀ e ∈ w.accepted, e ∈ w.box.files ∨ expired e.2 w.now = true ∨ Settled w.record e.2

/-- No mail is in the saved conversation twice. -/
def MailWorld.Once (w : MailWorld) : Prop := (w.record.transcript.map Arrival.mail).Nodup

/-- No file is named with the id of another mail of the folders at its end. -/
def DistinctTails (folder : MailFolder) : Prop :=
  ∀ e ∈ folder, ∀ e' ∈ folder, acksFile e'.2.id e.1 = true → e.2.id = e'.2.id

/-- Fewer than `kDeliveredIds` deliveries lie between a mail's delivery and
each time it is handed over again. -/
def Timely : MailProcess → Mailbox → List Mail → Prop
  | _, _, [] => True
  | p, box, mail :: taken =>
    (mail.id ∈ (p.transcript ++ p.queue).map Arrival.mail → p.log.idxOf mail.id < kDeliveredIds) ∧
      let (ops, p) := deliverOne p box.cur mail
      Timely p (ops.foldl Mailbox.apply box) taken

instance decidableTimely : (p : MailProcess) → (box : Mailbox) → (taken : List Mail) →
    Decidable (Timely p box taken)
  | _, _, [] => isTrue trivial
  | p, box, mail :: taken =>
    let _ := decidableTimely (deliverOne p box.cur mail).2
      ((deliverOne p box.cur mail).1.foldl Mailbox.apply box) taken
    inferInstanceAs (Decidable (_ ∧ _))

/-- The deliveries of a call are timely. -/
def MailCall.Timely (call : MailCall) (p : MailProcess) (box : Mailbox) (now : Int) : Prop :=
  match call with
  | .deliver allowed =>
    UAgent.Timely p ((takeMail box now allowed).1.foldl Mailbox.apply box)
      (takeMail box now allowed).2
  | _ => True

/-- The provisos of a run: deliveries are timely, and a sent mail has a valid
id, which names no mail with another text, and a file name of its own. -/
def MailWorld.Given (w : MailWorld) : MailEvent → Prop
  | .send mail _ context =>
    let sent := stamped mail context
    readable sent = true ∧
      (∀ e ∈ w.accepted,
        e.1 ≠ mailFile (mailStamp sent.createdMs context.pid context.sequence) sent.id) ∧
      ∀ e ∈ w.accepted, e.2.id = sent.id → mailText e.2 = mailText sent
  | .call call | .crash call _ => ∀ p ∈ w.process, call.Timely p w.box w.now
  | _ => True

/-- Whether an operation removes an acknowledged file. -/
def MailOp.isAck : MailOp → Bool
  | .ack _ => true
  | _ => false

/-- The mailbox operations of a call that is cut off after `after` steps; the
first step of a save writes its record. -/
def MailCall.cutOps (call : MailCall) (p : MailProcess) (box : Mailbox) (now : Int)
    (after : Nat) : List MailOp :=
  match call with
  | .save => (p.saved box.cur).1.take (after - 1)
  | .take _ | .deliver _ => (call.run p box now).1.take after

/-- The condition under which acknowledgements find the right files: when
something is acknowledged, no file is named for two mails. -/
def MailWorld.Unambiguous (w : MailWorld) : MailEvent → Prop
  | .call call => ∀ p ∈ w.process,
    (call.run p w.box w.now).1.any MailOp.isAck = true → DistinctTails w.box.files
  | .crash call after => ∀ p ∈ w.process,
    (call.cutOps p w.box w.now after).any MailOp.isAck = true → DistinctTails w.box.files
  | _ => True

instance (folder : MailFolder) : Decidable (DistinctTails folder) := by
  unfold DistinctTails; infer_instance

instance (call : MailCall) (p : MailProcess) (box : Mailbox) (now : Int) :
    Decidable (call.Timely p box now) := by
  unfold MailCall.Timely; split <;> infer_instance

instance (w : MailWorld) (e : MailEvent) : Decidable (w.Given e) := by
  unfold MailWorld.Given; split <;> infer_instance

instance (w : MailWorld) (e : MailEvent) : Decidable (w.Unambiguous e) := by
  unfold MailWorld.Unambiguous; split <;> infer_instance

instance (w : MailWorld) : Decidable w.Kept := by
  unfold MailWorld.Kept Settled; infer_instance

/-! ### The mailbox keeps what was committed -/

/-- What holds of the messages senders have committed. -/
structure AcceptedInv (accepted : List (Bytes × Mail)) : Prop where
  named : ∀ e ∈ accepted, Named e
  readable : ∀ e ∈ accepted, readable e.2 = true
  unique : ∀ e ∈ accepted, ∀ e' ∈ accepted, e.1 = e'.1 → e = e'
  text : ∀ e ∈ accepted, ∀ e' ∈ accepted, e.2.id = e'.2.id → mailText e.2 = mailText e'.2

/-- The mailbox holds committed messages only, and all those neither expired
nor settled. -/
structure BoxInv (accepted : List (Bytes × Mail)) (now : Int) (record : MailRecord)
    (box : Mailbox) : Prop where
  mem_accepted : ∀ e ∈ box.files, e ∈ accepted
  kept : ∀ e ∈ accepted, e ∈ box.files ∨ expired e.2 now = true ∨ Settled record e.2

/-- An operation that loses nothing. -/
def MailOp.Legal (accepted : List (Bytes × Mail)) (now : Int) (record : MailRecord) :
    MailOp → Prop
  | .commit _ _ | .setAside _ => False
  | .expire name => ∀ e ∈ accepted, e.1 = name → expired e.2 now = true
  | .take _ | .recover _ => True
  | .ack name => ∀ e ∈ accepted, e.1 = name → Settled record e.2

section Box

variable {accepted : List (Bytes × Mail)} {now : Int} {record : MailRecord} {box : Mailbox}

theorem mem_files {e : Bytes × Mail} : e ∈ box.files ↔ e ∈ box.new ∨ e ∈ box.cur :=
  List.mem_append

/-- Moving the message called `name` between the folders leaves the mailbox
with the same files. -/
theorem mem_moved (hu : AcceptedInv accepted) {src dst : MailFolder} {name : Bytes} {mail : Mail}
    (hsrc : ∀ e ∈ src, e ∈ accepted) (hdst : ∀ e ∈ dst, e ∈ accepted)
    (hl : Assoc.lookup name src = some mail) (e : Bytes × Mail) :
    e ∈ Assoc.erase name src ∨ e ∈ Assoc.insert name mail dst ↔ e ∈ src ∨ e ∈ dst := by
  have hmem := Assoc.mem_of_lookup hl
  constructor
  · rintro (h | h)
    · exact .inl (Assoc.mem_erase.mp h).1
    · rcases Assoc.eq_or_mem_of_mem_insert h with rfl | h
      · exact .inl hmem
      · exact .inr h
  · -- A file of that name is the one moved: names are the senders' own.
    have hsame : e ∈ accepted → e.1 = name → e = (name, mail) := fun he hname =>
      hu.unique e he _ (hsrc _ hmem) hname
    rintro (h | h)
    · by_cases hname : e.1 = name
      · rw [hsame (hsrc e h) hname]
        exact .inr (Assoc.mem_insert_self _ _ _)
      · exact .inl (Assoc.mem_erase.mpr ⟨h, hname⟩)
    · by_cases hname : e.1 = name
      · rw [hsame (hdst e h) hname]
        exact .inr (Assoc.mem_insert_self _ _ _)
      · exact .inr (Assoc.mem_insert_of_ne h hname)

theorem mem_files_take (hu : AcceptedInv accepted) (hbox : ∀ e ∈ box.files, e ∈ accepted)
    (name : Bytes) (e : Bytes × Mail) : e ∈ (box.apply (.take name)).files ↔ e ∈ box.files := by
  rw [Mailbox.apply]
  rcases hl : Assoc.lookup name box.new with - | mail
  · rfl
  · rw [mem_files, mem_files]
    exact mem_moved hu (fun e he => hbox e (mem_files.mpr (.inl he)))
      (fun e he => hbox e (mem_files.mpr (.inr he))) hl e

theorem mem_files_recover (hu : AcceptedInv accepted) (hbox : ∀ e ∈ box.files, e ∈ accepted)
    (name : Bytes) (e : Bytes × Mail) :
    e ∈ (box.apply (.recover name)).files ↔ e ∈ box.files := by
  rw [Mailbox.apply]
  rcases hl : Assoc.lookup name box.cur with - | mail
  · rfl
  · rw [mem_files, mem_files, or_comm, or_comm (a := e ∈ box.new)]
    exact mem_moved hu (fun e he => hbox e (mem_files.mpr (.inr he)))
      (fun e he => hbox e (mem_files.mpr (.inl he))) hl e

/-- No legal operation brings a file in. -/
theorem mem_files_of_apply (hu : AcceptedInv accepted) (hbox : ∀ e ∈ box.files, e ∈ accepted)
    {op : MailOp} (hop : op.Legal accepted now record) {e : Bytes × Mail}
    (h : e ∈ (box.apply op).files) : e ∈ box.files := by
  cases op with
  | commit name mail => exact hop.elim
  | setAside name => exact hop.elim
  | expire name => exact mem_files.mpr ((mem_files.mp h).imp_left fun h => (Assoc.mem_erase.mp h).1)
  | take name => exact (mem_files_take hu hbox name e).mp h
  | ack name => exact mem_files.mpr ((mem_files.mp h).imp_right fun h => (Assoc.mem_erase.mp h).1)
  | recover name => exact (mem_files_recover hu hbox name e).mp h

/-- A file a legal operation removes was expired or settled. -/
theorem mem_apply_or_lost (hu : AcceptedInv accepted) (hbox : ∀ e ∈ box.files, e ∈ accepted)
    {op : MailOp} (hop : op.Legal accepted now record) {e : Bytes × Mail} (h : e ∈ box.files) :
    e ∈ (box.apply op).files ∨ expired e.2 now = true ∨ Settled record e.2 := by
  have hacc := hbox e h
  cases op with
  | commit name mail => exact hop.elim
  | setAside name => exact hop.elim
  | expire name =>
    by_cases hname : e.1 = name
    · exact .inr (.inl (hop e hacc hname))
    · exact .inl (mem_files.mpr ((mem_files.mp h).imp_left fun h =>
        Assoc.mem_erase.mpr ⟨h, hname⟩))
  | take name => exact .inl ((mem_files_take hu hbox name e).mpr h)
  | ack name =>
    by_cases hname : e.1 = name
    · exact .inr (.inr (hop e hacc hname))
    · exact .inl (mem_files.mpr ((mem_files.mp h).imp_right fun h =>
        Assoc.mem_erase.mpr ⟨h, hname⟩))
  | recover name => exact .inl ((mem_files_recover hu hbox name e).mpr h)

theorem BoxInv.apply (hu : AcceptedInv accepted) (h : BoxInv accepted now record box)
    {op : MailOp} (hop : op.Legal accepted now record) :
    BoxInv accepted now record (box.apply op) := by
  refine ⟨fun e he => h.mem_accepted e (mem_files_of_apply hu h.mem_accepted hop he),
    fun e he => ?_⟩
  rcases h.kept e he with hf | hlost
  · exact mem_apply_or_lost hu h.mem_accepted hop hf
  · exact .inr hlost

/-- Any number of legal operations keep the mailbox. -/
theorem BoxInv.applyAll (hu : AcceptedInv accepted) {ops : List MailOp}
    (hops : ∀ op ∈ ops, op.Legal accepted now record) (h : BoxInv accepted now record box) :
    BoxInv accepted now record (ops.foldl Mailbox.apply box) := by
  induction ops generalizing box with
  | nil => exact h
  | cons op ops ih =>
    exact ih (fun op' h' => hops op' (List.mem_cons_of_mem _ h'))
      (h.apply hu (hops op List.mem_cons_self))

/-- A cut list of legal operations keeps the mailbox too. -/
theorem BoxInv.applyTake (hu : AcceptedInv accepted) {ops : List MailOp}
    (hops : ∀ op ∈ ops, op.Legal accepted now record) (h : BoxInv accepted now record box)
    (after : Nat) : BoxInv accepted now record ((ops.take after).foldl Mailbox.apply box) :=
  h.applyAll hu fun op hop => hops op (List.mem_of_mem_take hop)

theorem mem_files_of_applyAll (hu : AcceptedInv accepted) {ops : List MailOp}
    (hops : ∀ op ∈ ops, op.Legal accepted now record) (h : BoxInv accepted now record box)
    {e : Bytes × Mail} (he : e ∈ (ops.foldl Mailbox.apply box).files) : e ∈ box.files := by
  induction ops generalizing box with
  | nil => exact he
  | cons op ops ih =>
    have hop := hops op List.mem_cons_self
    exact mem_files_of_apply hu h.mem_accepted hop
      (ih (fun op' h' => hops op' (List.mem_cons_of_mem _ h')) (h.apply hu hop) he)

/-- The invariant only grows weaker as time passes and records grow. -/
theorem BoxInv.mono (h : BoxInv accepted now record box) {now' : Int} (hnow : now ≤ now')
    {record' : MailRecord} (hrec : record.transcript ⊆ record'.transcript) :
    BoxInv accepted now' record' box := by
  refine ⟨h.mem_accepted, fun e he => ?_⟩
  rcases h.kept e he with hf | hexp | hset
  · exact .inl hf
  · refine .inr (.inl ?_)
    simp only [expired, Bool.and_eq_true, decide_eq_true_eq] at hexp ⊢
    exact ⟨hexp.1, by omega⟩
  · exact .inr (.inr (hset.imp_right fun h => hrec h))

end Box

/-! ### Acknowledging and taking -/

section Ops

variable {accepted : List (Bytes × Mail)} {now : Int} {record : MailRecord} {box : Mailbox}

/-- Acknowledgements take their files out of `cur/` and do nothing else. -/
theorem applyAll_acks {ops : List MailOp} (hops : ∀ op ∈ ops, ∃ name, op = .ack name) :
    (ops.foldl Mailbox.apply box).new = box.new ∧
      ∀ e, e ∈ (ops.foldl Mailbox.apply box).cur ↔ e ∈ box.cur ∧ MailOp.ack e.1 ∉ ops := by
  induction ops generalizing box with
  | nil => simp
  | cons op ops ih =>
    obtain ⟨name, rfl⟩ := hops op List.mem_cons_self
    obtain ⟨hnew, hcur⟩ := @ih (box.apply (.ack name))
      fun op' h' => hops op' (List.mem_cons_of_mem _ h')
    refine ⟨hnew, fun e => ?_⟩
    rw [List.foldl_cons, hcur]
    simp [Mailbox.apply, Assoc.mem_erase, and_assoc]

theorem ackMail_acks {cur : MailFolder} {ids : List Bytes} :
    ∀ op ∈ ackMail cur ids, ∃ name, op = .ack name := by
  intro op hop
  obtain ⟨e, -, -, rfl⟩ := mem_ackMail.mp hop
  exact ⟨e.1, rfl⟩

theorem any_isAck {ops : List MailOp} {name : Bytes} (h : MailOp.ack name ∈ ops) :
    ops.any MailOp.isAck = true :=
  List.any_eq_true.mpr ⟨_, h, rfl⟩

/-- Acknowledging ids whose files are all settled loses nothing. -/
theorem ackMail_legal (hu : AcceptedInv accepted) (hbox : BoxInv accepted now record box)
    {ids : List Bytes}
    (hset : ∀ e ∈ box.cur, MailOp.ack e.1 ∈ ackMail box.cur ids →
      (∃ acked ∈ ids, acksFile acked e.1 = true) → Settled record e.2) :
    ∀ op ∈ ackMail box.cur ids, op.Legal accepted now record := by
  intro op hop
  obtain ⟨e, he, hids, rfl⟩ := mem_ackMail.mp hop
  have hcur : e ∈ box.cur := (List.mem_filter.mp he).1
  intro e' he' hname
  rw [hu.unique e' he' e (hbox.mem_accepted e (mem_files.mpr (.inr hcur))) hname]
  exact hset e hcur hop hids

theorem BoxInv.new_named (hu : AcceptedInv accepted) (hbox : BoxInv accepted now record box) :
    (∀ e ∈ box.new, Named e) ∧ ∀ e ∈ box.new, readable e.2 = true :=
  ⟨fun e he => hu.named e (hbox.mem_accepted e (mem_files.mpr (.inl he))),
    fun e he => hu.readable e (hbox.mem_accepted e (mem_files.mpr (.inl he)))⟩

/-- A take loses nothing. -/
theorem takeMail_legal (hu : AcceptedInv accepted) (hbox : BoxInv accepted now record box)
    (accept : Mail → Bool) : ∀ op ∈ (takeMail box now accept).1, op.Legal accepted now record := by
  obtain ⟨hn, hr⟩ := hbox.new_named hu
  intro op hop
  obtain ⟨e, he, ⟨rfl, hexp⟩ | rfl⟩ := mem_takeMail_fst hn hr hop
  · intro e' he' hname
    rwa [hu.unique e' he' e (hbox.mem_accepted e (mem_files.mpr (.inl he))) hname]
  · trivial

/-- A recovery loses nothing. -/
theorem recoverMail_legal (cur : MailFolder) :
    ∀ op ∈ recoverMail cur, op.Legal accepted now record := by
  intro op hop
  obtain ⟨e, -, rfl⟩ := List.mem_map.mp hop
  trivial

/-- The operations of a take: expiries and moves to `cur/`. -/
def MailOp.IsTake (op : MailOp) : Prop := (∃ name, op = .expire name) ∨ ∃ name, op = .take name

theorem takeMail_isTake (hu : AcceptedInv accepted) (hbox : BoxInv accepted now record box)
    (accept : Mail → Bool) : ∀ op ∈ (takeMail box now accept).1, op.IsTake := by
  obtain ⟨hn, hr⟩ := hbox.new_named hu
  intro op hop
  obtain ⟨e, he, ⟨rfl, -⟩ | rfl⟩ := mem_takeMail_fst hn hr hop
  · exact .inl ⟨_, rfl⟩
  · exact .inr ⟨_, rfl⟩

/-- Nothing enters `new/`, and nothing leaves `cur/`. -/
theorem apply_isTake (hu : AcceptedInv accepted) (hbox : ∀ e ∈ box.files, e ∈ accepted)
    {op : MailOp} (hop : op.IsTake) :
    (∀ e ∈ (box.apply op).new, e ∈ box.new) ∧ ∀ e ∈ box.cur, e ∈ (box.apply op).cur := by
  obtain ⟨name, rfl⟩ | ⟨name, rfl⟩ := hop
  · exact ⟨fun e he => (Assoc.mem_erase.mp he).1, fun e he => he⟩
  · rw [Mailbox.apply]
    rcases hl : Assoc.lookup name box.new with - | mail
    · exact ⟨fun e he => he, fun e he => he⟩
    · refine ⟨fun e he => (Assoc.mem_erase.mp he).1, fun e he => ?_⟩
      by_cases hname : e.1 = name
      · have hmem := Assoc.mem_of_lookup hl
        rw [hu.unique e (hbox e (mem_files.mpr (.inr he))) _
          (hbox _ (mem_files.mpr (.inl hmem))) hname]
        exact Assoc.mem_insert_self _ _ _
      · exact Assoc.mem_insert_of_ne he hname

theorem applyAll_isTake (hu : AcceptedInv accepted) (hbox : BoxInv accepted now record box)
    {ops : List MailOp} (hlegal : ∀ op ∈ ops, op.Legal accepted now record)
    (hops : ∀ op ∈ ops, op.IsTake) :
    (∀ e ∈ (ops.foldl Mailbox.apply box).new, e ∈ box.new) ∧
      ∀ e ∈ box.cur, e ∈ (ops.foldl Mailbox.apply box).cur := by
  induction ops generalizing box with
  | nil => exact ⟨fun e he => he, fun e he => he⟩
  | cons op ops ih =>
    obtain ⟨hnew, hcur⟩ := apply_isTake hu hbox.mem_accepted (hops op List.mem_cons_self)
    obtain ⟨hnew', hcur'⟩ := ih (hbox.apply hu (hlegal op List.mem_cons_self))
      (fun op' h' => hlegal op' (List.mem_cons_of_mem _ h'))
      (fun op' h' => hops op' (List.mem_cons_of_mem _ h'))
    exact ⟨fun e he => hnew e (hnew' e he), fun e he => hcur' e (hcur e he)⟩

/-- A name that was taken is no longer pending. -/
theorem not_mem_new_of_take (hu : AcceptedInv accepted) (hbox : BoxInv accepted now record box)
    {ops : List MailOp} (hlegal : ∀ op ∈ ops, op.Legal accepted now record)
    (hops : ∀ op ∈ ops, op.IsTake) {e : Bytes × Mail} (htake : MailOp.take e.1 ∈ ops) :
    e ∉ (ops.foldl Mailbox.apply box).new := by
  induction ops generalizing box with
  | nil => exact absurd htake List.not_mem_nil
  | cons op ops ih =>
    have hlegal' : ∀ op ∈ ops, op.Legal accepted now record :=
      fun op' h' => hlegal op' (List.mem_cons_of_mem _ h')
    have hops' : ∀ op ∈ ops, op.IsTake := fun op' h' => hops op' (List.mem_cons_of_mem _ h')
    have hbox' := hbox.apply hu (hlegal op List.mem_cons_self)
    rcases List.mem_cons.mp htake with rfl | htake
    · intro he
      have hnew := (applyAll_isTake hu hbox' hlegal' hops').1 e he
      rw [Mailbox.apply] at hnew
      rcases hl : Assoc.lookup e.1 box.new with - | mail
      · rw [hl] at hnew
        exact Assoc.lookup_eq_none.mp hl (List.mem_map_of_mem hnew)
      · rw [hl] at hnew
        exact (Assoc.mem_erase.mp hnew).2 rfl
    · exact ih hbox' hlegal' hops' htake

/-- What a take hands over lies in `cur/`. -/
theorem mem_cur_of_taken (hu : AcceptedInv accepted) (hbox : BoxInv accepted now record box)
    {accept : Mail → Bool} {mail : Mail} (h : mail ∈ (takeMail box now accept).2) :
    ∃ name, (name, mail) ∈ box.new ∧
      ((name, mail) ∈ ((takeMail box now accept).1.foldl Mailbox.apply box).cur ∨
        Settled record mail) := by
  obtain ⟨hn, hr⟩ := hbox.new_named hu
  obtain ⟨name, hnew, htake⟩ := mem_takeMail_snd hn hr h
  have hfresh : expired mail now = false := by
    have := (List.mem_filter.mp h).2
    simp only [takes, Bool.and_eq_true, Bool.not_eq_true'] at this
    exact this.1
  refine ⟨name, hnew, ?_⟩
  have hlegal := takeMail_legal hu hbox accept
  have hinv := hbox.applyAll hu hlegal
  rcases hinv.kept _ (hbox.mem_accepted _ (mem_files.mpr (.inl hnew))) with hf | hexp | hset
  · rcases mem_files.mp hf with hf | hf
    · exact absurd hf (not_mem_new_of_take hu hbox hlegal (takeMail_isTake hu hbox accept) htake)
    · exact .inl hf
  · rw [hfresh] at hexp
    exact absurd hexp Bool.false_ne_true
  · exact .inr hset

end Ops

/-! ### What a runtime knows -/

/-- The ids a runtime has delivered: part of the conversation, or queued. -/
def MailProcess.heard (p : MailProcess) : List Bytes :=
  (p.transcript ++ p.queue).map Arrival.mail

/-- What holds of a runtime beside its record and its mailbox. -/
structure ProcessInv (accepted : List (Bytes × Mail)) (record : MailRecord) (box : Mailbox)
    (p : MailProcess) : Prop where
  heard_nodup : p.heard.Nodup
  arriving : ∀ x, x ∈ p.arriving ↔ x ∈ p.queue.map Arrival.mail
  delivered_heard : ∀ x ∈ p.delivered, x ∈ p.heard
  /-- Only old deliveries are forgotten. -/
  recent : ∀ x ∈ p.heard, p.log.idxOf x < kDeliveredIds → x ∈ p.delivered
  order : p.delivered.reverse.Pairwise fun a b => p.log.idxOf a < p.log.idxOf b
  unacked_heard : ∀ x ∈ p.unacked, x ∈ p.heard
  unacked_file : ∀ x ∈ p.unacked, ∃ e ∈ box.cur, e.2.id = x
  /-- What needs no acknowledgement by a save is in the record already. -/
  recorded : ∀ x ∈ p.delivered, x ∉ p.unacked → x ∈ record.transcript.map Arrival.mail
  extends_record : record.transcript ⊆ p.transcript
  content : ∀ a ∈ p.transcript ++ p.queue,
    ∃ e ∈ accepted, e.2.id = a.mail ∧ mailText e.2 = a.text

/-- In a strictly increasing list the last value is at least the number of
those before it. -/
theorem length_le_of_pairwise {α : Type*} (f : α → Nat) {l : List α} {z : α}
    (h : (l ++ [z]).Pairwise fun a b => f a < f b) : l.length ≤ f z := by
  induction l using List.reverseRecOn generalizing z with
  | nil => exact Nat.zero_le _
  | append_singleton l w ih =>
    have hw := ih (List.pairwise_append.mp h).1
    have hlt : f w < f z := (List.pairwise_append.mp h).2.2 w (by simp) z (by simp)
    rw [List.length_append, List.length_singleton]
    omega

section Process

variable {accepted : List (Bytes × Mail)} {now : Int} {record : MailRecord} {box : Mailbox}
  {p : MailProcess}

theorem mem_heard {x : Bytes} :
    x ∈ p.heard ↔ x ∈ p.transcript.map Arrival.mail ∨ x ∈ p.queue.map Arrival.mail := by
  rw [MailProcess.heard, List.map_append, List.mem_append]

/-- What was heard and is no longer arriving is in the conversation. -/
theorem ProcessInv.mem_transcript (h : ProcessInv accepted record box p) {x : Bytes}
    (hx : x ∈ p.heard) (ha : x ∉ p.arriving) : x ∈ p.transcript.map Arrival.mail := by
  rcases mem_heard.mp hx with hx | hx
  · exact hx
  · exact absurd ((h.arriving x).mpr hx) ha

/-- A mail whose id is in the conversation is settled by it. -/
theorem settled_of_mem (hu : AcceptedInv accepted) {transcript : List Arrival}
    (hcontent : ∀ a ∈ transcript, ∃ e ∈ accepted, e.2.id = a.mail ∧ mailText e.2 = a.text)
    (hr : record.transcript = transcript) {e : Bytes × Mail} (he : e ∈ accepted)
    (hid : e.2.id ∈ transcript.map Arrival.mail) : Settled record e.2 := by
  obtain ⟨a, ha, hmail⟩ := List.mem_map.mp hid
  obtain ⟨e', he', hid', htext⟩ := hcontent a ha
  have ht : mailText e.2 = a.text := by
    rw [← htext]
    exact hu.text e he e' he' (by rw [hid', hmail])
  refine .inr ?_
  rw [hr, ← hmail, ht]
  exact ha

theorem ProcessInv.record_content (h : ProcessInv accepted record box p) :
    ∀ a ∈ record.transcript, ∃ e ∈ accepted, e.2.id = a.mail ∧ mailText e.2 = a.text :=
  fun a ha => h.content a (List.mem_append_left _ (h.extends_record ha))

/-- The invariant depends on the mailbox only through the taken files. -/
theorem ProcessInv.of_cur (h : ProcessInv accepted record box p) {box' : Mailbox}
    (hcur : ∀ e ∈ box.cur, e ∈ box'.cur) : ProcessInv accepted record box' p := by
  refine { h with unacked_file := fun x hx => ?_ }
  obtain ⟨e, he, hid⟩ := h.unacked_file x hx
  exact ⟨e, hcur e he, hid⟩

theorem ProcessInv.of_accepted (h : ProcessInv accepted record box p)
    {accepted' : List (Bytes × Mail)} (hacc : accepted ⊆ accepted') :
    ProcessInv accepted' record box p := by
  refine { h with content := fun a ha => ?_ }
  obtain ⟨e, he, hid⟩ := h.content a ha
  exact ⟨e, hacc he, hid⟩

/-- A runtime that has just loaded waits for nothing. -/
theorem ProcessInv.load_box (h : ProcessInv accepted record box (loadMail record))
    (box' : Mailbox) : ProcessInv accepted record box' (loadMail record) :=
  { h with unacked_file := fun _ hx => absurd hx List.not_mem_nil }

/-! ### One delivery -/

/-- Names at odds with other ids are excluded for the files of a folder and
for all that comes of it. -/
theorem DistinctTails.id_eq {folder : MailFolder} (hd : DistinctTails folder) {e : Bytes × Mail}
    (he : e ∈ folder) {name : Bytes} {mail : Mail} (hm : (name, mail) ∈ folder)
    (h : acksFile mail.id e.1 = true) : e.2.id = mail.id :=
  hd e he _ hm h

/-- The new id list after a delivery, before the oldest is dropped, is ordered
by the new history. -/
theorem order_deliver (h : ProcessInv accepted record box p) {x : Bytes} (hx : x ∉ p.delivered) :
    (p.delivered ++ [x]).reverse.Pairwise
      fun a b => (x :: p.log).idxOf a < (x :: p.log).idxOf b := by
  rw [List.reverse_append, List.reverse_singleton, List.singleton_append, List.pairwise_cons]
  have hne : ∀ b ∈ p.delivered.reverse, b ≠ x := fun b hb hbx =>
    hx (hbx ▸ List.mem_reverse.mp hb)
  constructor
  · intro b hb
    rw [List.idxOf_cons_self, List.idxOf_cons_ne _ (hne b hb).symm]
    omega
  · refine h.order.imp_of_mem fun {a b} ha hb hab => ?_
    rw [List.idxOf_cons_ne _ (hne a ha).symm, List.idxOf_cons_ne _ (hne b hb).symm]
    omega

/-- The id dropped when the list is full was delivered long ago. -/
theorem recent_deliver (h : ProcessInv accepted record box p) {x y : Bytes}
    (hx : x ∉ p.delivered) (hy : y = x ∨ y ∈ p.heard)
    (hrecent : (x :: p.log).idxOf y < kDeliveredIds) :
    y ∈ (if (p.delivered ++ [x]).length > kDeliveredIds then (p.delivered ++ [x]).tail
      else p.delivered ++ [x]) := by
  have hmem : y ∈ p.delivered ++ [x] := by
    by_cases hyx : y = x
    · rw [hyx]
      exact List.mem_append_right _ List.mem_cons_self
    · rw [List.idxOf_cons_ne _ (Ne.symm hyx)] at hrecent
      exact List.mem_append_left _ (h.recent y (hy.resolve_left hyx) (by omega))
  split_ifs with hfull
  · have hord := order_deliver h hx
    rcases hd : p.delivered ++ [x] with - | ⟨z, rest⟩
    · rw [hd] at hmem
      exact absurd hmem List.not_mem_nil
    · rw [hd, List.reverse_cons] at hord
      rw [hd, List.length_cons] at hfull
      rcases List.mem_cons.mp (hd ▸ hmem) with rfl | hrest
      · have := length_le_of_pairwise _ hord
        rw [List.length_reverse] at this
        omega
      · exact hrest
  · exact hmem

/-- A new mail is taken up: its id is listed and its text queued. -/
theorem ProcessInv.deliver (h : ProcessInv accepted record box p) {mail : Mail}
    (hheard : mail.id ∉ p.heard) (hid : mail.id ≠ []) {name : Bytes}
    (hfile : (name, mail) ∈ box.cur) (hacc : (name, mail) ∈ accepted) :
    ProcessInv accepted record box
      ({ p with
        unacked := p.unacked ++ [mail.id]
        delivered := if (p.delivered ++ [mail.id]).length > kDeliveredIds
          then (p.delivered ++ [mail.id]).tail else p.delivered ++ [mail.id]
        log := mail.id :: p.log }.arrive mail.id (mailText mail)) := by
  have hx : mail.id ∉ p.delivered := fun hd => hheard (h.delivered_heard _ hd)
  have hheard' : ∀ y, y ∈ (p.transcript ++ (p.queue ++ [(⟨mail.id, mailText mail⟩ : Arrival)])).map
      Arrival.mail ↔ y ∈ p.heard ∨ y = mail.id := by
    intro y
    simp [MailProcess.heard, or_assoc]
  have hsub : ∀ y, y ∈ (if (p.delivered ++ [mail.id]).length > kDeliveredIds
      then (p.delivered ++ [mail.id]).tail else p.delivered ++ [mail.id]) →
      y ∈ p.delivered ∨ y = mail.id := by
    intro y hy
    have : y ∈ p.delivered ++ [mail.id] := by
      split_ifs at hy
      · exact List.mem_of_mem_tail hy
      · exact hy
    simpa using this
  refine ⟨?_, fun y => ?_, fun y hy => ?_, fun y hy hrec => ?_, ?_, fun y hy => ?_, fun y hy => ?_,
    fun y hy hun => ?_, h.extends_record, fun a ha => ?_⟩
  · have hn : (p.heard ++ [mail.id]).Nodup :=
      List.nodup_append.mpr ⟨h.heard_nodup, List.nodup_singleton _, fun a ha b hb hab =>
        hheard (List.mem_singleton.mp hb ▸ hab ▸ ha)⟩
    simpa [MailProcess.heard, MailProcess.arrive] using hn
  · simp [MailProcess.arrive, hid, h.arriving y]
  · exact (hheard' y).mpr ((hsub y hy).imp_left (h.delivered_heard y))
  · exact recent_deliver h hx ((hheard' y).mp hy).symm hrec
  · have hord := order_deliver h hx
    show List.Pairwise _ (List.reverse (ite _ _ _))
    split_ifs
    · exact hord.sublist (List.tail_sublist _).reverse
    · exact hord
  · rcases List.mem_append.mp hy with hy | hy
    · exact (hheard' y).mpr (.inl (h.unacked_heard y hy))
    · exact (hheard' y).mpr (.inr (List.mem_singleton.mp hy))
  · rcases List.mem_append.mp hy with hy | hy
    · exact h.unacked_file y hy
    · exact ⟨_, hfile, (List.mem_singleton.mp hy).symm⟩
  · have hun' : y ∉ p.unacked ∧ y ≠ mail.id := by simpa [MailProcess.arrive] using hun
    exact h.recorded y ((hsub y hy).resolve_right hun'.2) hun'.1
  · rcases List.mem_append.mp ha with ha | ha
    · exact h.content a (List.mem_append_left _ ha)
    · rcases List.mem_append.mp ha with ha | ha
      · exact h.content a (List.mem_append_right _ ha)
      · rw [List.mem_singleton.mp ha]
        exact ⟨_, hacc, rfl, rfl⟩

/-- A round of the delivery loop does nothing to the mailbox but acknowledge. -/
theorem deliverOne_acks {cur : MailFolder} {mail : Mail} :
    ∀ op ∈ (deliverOne p cur mail).1, ∃ name, op = .ack name := by
  intro op hop
  unfold deliverOne at hop
  by_cases hnow : (mailText mail = [] ∨ mail.id ∈ p.delivered) ∧ mail.id ∉ p.unacked
  · simp only [hnow, not_false_eq_true, and_self, if_true] at hop
    exact ackMail_acks op hop
  · simp only [hnow, if_false] at hop
    by_cases hseen : mail.id ∈ p.delivered
    · simp only [hseen, if_true, List.not_mem_nil] at hop
    · simp only [hseen, if_false, List.not_mem_nil] at hop

theorem deliverLoop_acks {taken : List Mail} :
    ∀ op ∈ (deliverLoop p box taken).1, ∃ name, op = .ack name := by
  induction taken generalizing p box with
  | nil => exact fun op hop => absurd hop List.not_mem_nil
  | cons mail taken ih =>
    intro op hop
    rcases List.mem_append.mp hop with hop | hop
    · exact deliverOne_acks op hop
    · exact ih op hop

/-- One round of the delivery loop, over the files `folder` the delivery began
with.  The mail handed over lies in `cur/`, unless an earlier round of the loop
acknowledged it, and then it is settled. -/
theorem deliverOne_inv (hu : AcceptedInv accepted) {folder : MailFolder} {mail : Mail}
    (hd : (deliverOne p box.cur mail).1.any MailOp.isAck = true → DistinctTails folder)
    (hsub : ∀ e ∈ box.files, e ∈ folder)
    (hfolder : ∀ e ∈ folder, e ∈ accepted) (hbox : BoxInv accepted now record box)
    (h : ProcessInv accepted record box p) {name : Bytes}
    (hmail : (name, mail) ∈ folder) (hfile : (name, mail) ∈ box.cur ∨ Settled record mail)
    (htimely : mail.id ∈ p.heard → p.log.idxOf mail.id < kDeliveredIds) :
    (∀ op ∈ (deliverOne p box.cur mail).1, op.Legal accepted now record) ∧
      ProcessInv accepted record ((deliverOne p box.cur mail).1.foldl Mailbox.apply box)
        (deliverOne p box.cur mail).2 := by
  have hacc := hfolder _ hmail
  have hcur : ∀ e ∈ box.cur, e ∈ folder := fun e he => hsub e (mem_files.mpr (.inr he))
  unfold deliverOne at hd ⊢
  by_cases hnow : (mailText mail = [] ∨ mail.id ∈ p.delivered) ∧ mail.id ∉ p.unacked
  · -- Blank, or known and saved: it is acknowledged at once.
    simp only [hnow, not_false_eq_true, and_self, if_true] at hd ⊢
    have hset : ∀ e ∈ box.cur, MailOp.ack e.1 ∈ ackMail box.cur [mail.id] →
        (∃ acked ∈ [mail.id], acksFile acked e.1 = true) → Settled record e.2 := by
      rintro e he hack ⟨acked, hacked, htail⟩
      rw [List.mem_singleton.mp hacked] at htail
      have hid := (hd (any_isAck hack)).id_eq (hcur e he) hmail htail
      rcases hnow.1 with hblank | hseen
      · exact .inl ((hu.text e (hfolder e (hcur e he)) _ hacc hid).trans hblank)
      · exact settled_of_mem hu h.record_content rfl (hfolder e (hcur e he))
          (hid ▸ h.recorded _ hseen hnow.2)
    refine ⟨ackMail_legal hu hbox hset, ?_⟩
    refine { h with unacked_file := fun x hx => ?_ }
    obtain ⟨e, he, hid⟩ := h.unacked_file x hx
    refine ⟨e, ((applyAll_acks ackMail_acks).2 e).mpr ⟨he, fun hack => ?_⟩, hid⟩
    obtain ⟨e', -, ⟨acked, hacked, htail⟩, hname⟩ := mem_ackMail.mp hack
    rw [List.mem_singleton.mp hacked, ← MailOp.ack.inj hname] at htail
    have hx' : mail.id ∈ p.unacked := by
      rw [← (hd (any_isAck hack)).id_eq (hcur e he) hmail htail, hid]
      exact hx
    exact hnow.2 hx'
  · simp only [hnow, if_false]
    by_cases hseen : mail.id ∈ p.delivered
    · -- Known, and a save is still to hold it.
      simp only [hseen, if_true, List.not_mem_nil, false_implies, implies_true, List.foldl_nil,
        true_and]
      have hun : mail.id ∈ p.unacked := by
        by_contra hun
        exact hnow ⟨.inr hseen, hun⟩
      refine { h with unacked_heard := fun x hx => ?_, unacked_file := fun x hx => ?_,
                      recorded := fun x hx hx' => ?_ }
      · rcases List.mem_append.mp hx with hx | hx
        · exact h.unacked_heard x hx
        · rw [List.mem_singleton.mp hx]
          exact h.unacked_heard _ hun
      · rcases List.mem_append.mp hx with hx | hx
        · exact h.unacked_file x hx
        · rw [List.mem_singleton.mp hx]
          exact h.unacked_file _ hun
      · exact h.recorded x hx fun hu' => hx' (List.mem_append_left _ hu')
    · -- New: had it been heard of before, its id would still be listed.
      simp only [hseen, if_false, List.not_mem_nil, false_implies, implies_true, List.foldl_nil,
        true_and]
      have hheard : mail.id ∉ p.heard := fun hh => hseen (h.recent _ hh (htimely hh))
      have hblank : mailText mail ≠ [] := fun hb =>
        hnow ⟨.inl hb, fun hun => hheard (h.unacked_heard _ hun)⟩
      have hcur' : (name, mail) ∈ box.cur := by
        refine hfile.resolve_right fun hset => ?_
        have hmem := List.mem_map_of_mem (f := Arrival.mail)
          (h.extends_record (hset.resolve_left hblank))
        exact hheard (mem_heard.mpr (.inl hmem))
      have hid : mail.id ≠ [] := by
        have hr := hu.readable _ hacc
        simp only [readable, validId, Bool.and_eq_true, decide_eq_true_eq] at hr
        exact hr.1.1
      exact h.deliver hheard hid hcur' hacc

/-- The whole loop. -/
theorem deliverLoop_inv (hu : AcceptedInv accepted) {folder : MailFolder} {taken : List Mail}
    (hd : (deliverLoop p box taken).1.any MailOp.isAck = true → DistinctTails folder)
    (hfolder : ∀ e ∈ folder, e ∈ accepted)
    (hsub : ∀ e ∈ box.files, e ∈ folder) (hbox : BoxInv accepted now record box)
    (h : ProcessInv accepted record box p)
    (htaken : ∀ mail ∈ taken, ∃ name, (name, mail) ∈ folder ∧
      ((name, mail) ∈ box.cur ∨ Settled record mail))
    (htimely : Timely p box taken) :
    (∀ op ∈ (deliverLoop p box taken).1, op.Legal accepted now record) ∧
      ProcessInv accepted record ((deliverLoop p box taken).1.foldl Mailbox.apply box)
        (deliverLoop p box taken).2 := by
  induction taken generalizing p box with
  | nil => exact ⟨fun op hop => absurd hop List.not_mem_nil, h⟩
  | cons mail taken ih =>
    obtain ⟨name, hmail, hfile⟩ := htaken mail List.mem_cons_self
    obtain ⟨htimely, hrest⟩ := htimely
    have hany : ∀ op ∈ (deliverLoop p box (mail :: taken)).1, op.isAck = true →
        DistinctTails folder := fun op hop hack => hd (List.any_eq_true.mpr ⟨op, hop, hack⟩)
    have hone : (deliverOne p box.cur mail).1.any MailOp.isAck = true → DistinctTails folder := by
      intro hack
      obtain ⟨op, hop, hack⟩ := List.any_eq_true.mp hack
      exact hany op (List.mem_append_left _ hop) hack
    obtain ⟨hlegal, hinv⟩ := deliverOne_inv hu hone hsub hfolder hbox h hmail hfile htimely
    -- The rest of the loop starts from the files this round has left.
    obtain ⟨hops', hinv'⟩ := ih
      (fun hack => by
        obtain ⟨op, hop, hack⟩ := List.any_eq_true.mp hack
        exact hany op (List.mem_append_right _ hop) hack)
      (fun e he => hsub e (mem_files_of_applyAll hu hlegal hbox he))
      (hbox.applyAll hu hlegal) hinv
      (fun mail' hmail' => by
        obtain ⟨name', hin, hfile'⟩ := htaken mail' (List.mem_cons_of_mem _ hmail')
        refine ⟨name', hin, ?_⟩
        rcases hfile' with hcur | hset
        · by_cases hack : MailOp.ack name' ∈ (deliverOne p box.cur mail).1
          · exact .inr (hlegal _ hack _ (hfolder _ hin) rfl)
          · exact .inl (((applyAll_acks deliverOne_acks).2 _).mpr ⟨hcur, hack⟩)
        · exact .inr hset)
      hrest
    refine ⟨fun op hop => ?_, ?_⟩
    · rcases List.mem_append.mp hop with hop | hop
      · exact hlegal op hop
      · exact hops' op hop
    · rw [deliverLoop, List.foldl_append]
      exact hinv'

/-- A delivery loses nothing and keeps the runtime. -/
theorem deliverMail_inv (hu : AcceptedInv accepted) (hbox : BoxInv accepted now record box)
    (h : ProcessInv accepted record box p) {allowed : Mail → Bool}
    (hd : (deliverMail p box now allowed).1.any MailOp.isAck = true → DistinctTails box.files)
    (htimely : (MailCall.deliver allowed).Timely p box now) :
    (∀ op ∈ (deliverMail p box now allowed).1, op.Legal accepted now record) ∧
      ProcessInv accepted record ((deliverMail p box now allowed).1.foldl Mailbox.apply box)
        (deliverMail p box now allowed).2 := by
  have hlegal := takeMail_legal hu hbox allowed
  have htake := applyAll_isTake hu hbox hlegal (takeMail_isTake hu hbox allowed)
  obtain ⟨hops, hinv⟩ := deliverLoop_inv hu
    (fun hack => by
      obtain ⟨op, hop, hack⟩ := List.any_eq_true.mp hack
      exact hd (List.any_eq_true.mpr ⟨op, List.mem_append_right _ hop, hack⟩))
    hbox.mem_accepted
    (fun e he => mem_files_of_applyAll hu hlegal hbox he) (hbox.applyAll hu hlegal)
    (h.of_cur htake.2)
    (fun mail hmail => by
      obtain ⟨name, hnew, hfile⟩ := mem_cur_of_taken hu hbox hmail
      exact ⟨name, mem_files.mpr (.inl hnew), hfile⟩)
    htimely
  refine ⟨fun op hop => ?_, ?_⟩
  · rcases List.mem_append.mp hop with hop | hop
    · exact hlegal op hop
    · exact hops op hop
  · rw [deliverMail, List.foldl_append]
    exact hinv

/-! ### Saving, loading, and entering the conversation -/

/-- What a save acknowledges is in the record it has written. -/
theorem saved_legal (hu : AcceptedInv accepted) (hbox : BoxInv accepted now record box)
    (h : ProcessInv accepted record box p)
    (hd : (p.saved box.cur).1.any MailOp.isAck = true → DistinctTails box.files) :
    ∀ op ∈ (p.saved box.cur).1, op.Legal accepted now p.record := by
  refine ackMail_legal hu (hbox.mono le_rfl h.extends_record) ?_
  rintro e he hack ⟨acked, hacked, htail⟩
  obtain ⟨hun, harr⟩ := List.mem_filter.mp hacked
  obtain ⟨e', he', hid'⟩ := h.unacked_file acked hun
  have hid : e.2.id = e'.2.id :=
    hd (any_isAck hack) e (mem_files.mpr (.inr he)) e' (mem_files.mpr (.inr he')) (by rwa [hid'])
  refine settled_of_mem hu (fun a ha => h.content a (List.mem_append_left _ ha)) rfl
    (hbox.mem_accepted e (mem_files.mpr (.inr he))) ?_
  rw [hid, hid']
  exact h.mem_transcript (h.unacked_heard acked hun) (by simpa using harr)

/-- The runtime after a save still waits for what is arriving. -/
theorem ProcessInv.save
    (hd : (p.saved box.cur).1.any MailOp.isAck = true → DistinctTails box.files)
    (h : ProcessInv accepted record box p) :
    ProcessInv accepted p.record ((p.saved box.cur).1.foldl Mailbox.apply box)
      (p.saved box.cur).2 := by
  refine { h with unacked_heard := fun x hx => ?_, unacked_file := fun x hx => ?_,
                  recorded := fun x hx hun => ?_, extends_record := List.Subset.refl _ }
  · exact h.unacked_heard x (List.mem_filter.mp hx).1
  · obtain ⟨hun, harr⟩ := List.mem_filter.mp hx
    obtain ⟨e, he, hid⟩ := h.unacked_file x hun
    refine ⟨e, ((applyAll_acks ackMail_acks).2 e).mpr ⟨he, fun hack => ?_⟩, hid⟩
    obtain ⟨e', -, ⟨acked, hacked, htail⟩, hname⟩ := mem_ackMail.mp hack
    rw [← MailOp.ack.inj hname] at htail
    obtain ⟨hun', harr'⟩ := List.mem_filter.mp hacked
    obtain ⟨e'', he'', hid''⟩ := h.unacked_file acked hun'
    have heq := hd (any_isAck hack) e (mem_files.mpr (.inr he)) e'' (mem_files.mpr (.inr he''))
      (by rwa [hid''])
    rw [hid, hid''] at heq
    rw [heq] at harr
    simp only [decide_eq_true_eq] at harr harr'
    exact harr' harr
  · by_cases hx' : x ∈ p.unacked
    · have harr : x ∉ p.arriving := fun harr =>
        hun (List.mem_filter.mpr ⟨hx', by simpa using harr⟩)
      exact h.mem_transcript (h.delivered_heard x hx) harr
    · obtain ⟨a, ha, rfl⟩ := List.mem_map.mp (h.recorded x hx hx')
      exact List.mem_map_of_mem (h.extends_record ha)

/-- The record of a runtime can be loaded. -/
theorem ProcessInv.load (h : ProcessInv accepted record box p) (box' : Mailbox) :
    ProcessInv accepted p.record box' (loadMail p.record) := by
  have hmem : ∀ x, x ∈ (loadMail p.record).heard ↔ x ∈ p.transcript.map Arrival.mail := by
    intro x
    simp [MailProcess.heard, loadMail, MailProcess.record]
  have hnodup := h.heard_nodup
  rw [MailProcess.heard, List.map_append] at hnodup
  refine ⟨?_, ?_, ?_, ?_, ?_, ?_, ?_, ?_, List.Subset.refl _, ?_⟩
  · simpa [MailProcess.heard, loadMail, MailProcess.record] using
      (List.nodup_append.mp hnodup).1
  · intro x
    exact Iff.rfl
  · intro x hx
    obtain ⟨hx, harr⟩ := List.mem_filter.mp hx
    exact (hmem x).mpr (h.mem_transcript (h.delivered_heard x hx) (by simpa using harr))
  · intro x hx hrec
    have hx := (hmem x).mp hx
    refine List.mem_filter.mpr ⟨h.recent x (mem_heard.mpr (.inl hx)) hrec, ?_⟩
    have harr : x ∉ p.arriving := fun harr =>
      (List.nodup_append.mp hnodup).2.2 x hx x ((h.arriving x).mp harr) rfl
    simpa using harr
  · exact h.order.sublist List.filter_sublist.reverse
  · exact fun x hx => absurd hx List.not_mem_nil
  · exact fun x hx => absurd hx List.not_mem_nil
  · intro x hx _
    obtain ⟨hx, harr⟩ := List.mem_filter.mp hx
    exact h.mem_transcript (h.delivered_heard x hx) (by simpa using harr)
  · intro a ha
    refine h.content a (List.mem_append_left _ ?_)
    simpa [loadMail, MailProcess.record] using ha

/-- A queued text that enters the conversation leaves what was heard as it
was. -/
theorem ProcessInv.enter (h : ProcessInv accepted record box p) (i : Nat) :
    ProcessInv accepted record box (p.enter i) := by
  unfold MailProcess.enter
  rcases hq : p.queue[i]? with - | arrival
  · exact h
  · obtain ⟨hi, rfl⟩ := List.getElem?_eq_some_iff.mp hq
    have hperm : (p.queue[i] :: p.queue.eraseIdx i).Perm p.queue :=
      List.getElem_cons_eraseIdx_perm hi
    have hall : (p.transcript ++ [p.queue[i]] ++ p.queue.eraseIdx i).Perm
        (p.transcript ++ p.queue) := by
      rw [List.append_assoc]
      exact hperm.append_left _
    have hheard : ∀ x, x ∈ (p.transcript ++ [p.queue[i]] ++ p.queue.eraseIdx i).map
        Arrival.mail ↔ x ∈ p.heard := fun x => (hall.map _).mem_iff
    have hqueue : (p.queue.map Arrival.mail).Nodup := by
      have := h.heard_nodup
      rw [MailProcess.heard, List.map_append] at this
      exact (List.nodup_append.mp this).2.1
    refine { h with heard_nodup := ?_, arriving := fun x => ?_,
                    delivered_heard := fun x hx => (hheard x).mpr (h.delivered_heard x hx),
                    recent := fun x hx => h.recent x ((hheard x).mp hx),
                    unacked_heard := fun x hx => (hheard x).mpr (h.unacked_heard x hx),
                    extends_record := fun a ha => List.mem_append_left _ (h.extends_record ha),
                    content := fun a ha => h.content a (hall.mem_iff.mp ha) }
    · exact ((hall.map _).nodup_iff).mpr h.heard_nodup
    · have hids := (hperm.map Arrival.mail)
      have hnd := hids.nodup_iff.mpr hqueue
      rw [List.map_cons, List.nodup_cons] at hnd
      rw [List.mem_filter, h.arriving, ← hids.mem_iff, List.map_cons, List.mem_cons]
      simp only [decide_eq_true_eq]
      constructor
      · rintro ⟨hx | hx, hne⟩
        · exact absurd hx hne
        · exact hx
      · intro hx
        exact ⟨.inr hx, fun hxe => hnd.1 (hxe ▸ hx)⟩

end Process

/-! ### The system keeps its mail -/

/-- The invariant of the system. -/
structure MailWorld.Inv (w : MailWorld) : Prop where
  accepted : AcceptedInv w.accepted
  box : BoxInv w.accepted w.now w.record w.box
  loaded : ProcessInv w.accepted w.record w.box (loadMail w.record)
  process : ∀ p, w.process = some p → ProcessInv w.accepted w.record w.box p

namespace MailWorld

variable {w : MailWorld}

theorem inv_initial : initial.Inv where
  accepted := ⟨by simp [initial], by simp [initial], by simp [initial], by simp [initial]⟩
  box := ⟨by simp [initial, Mailbox.files], by simp [initial]⟩
  loaded := by
    refine ⟨?_, ?_, ?_, ?_, ?_, ?_, ?_, ?_, List.Subset.refl _, ?_⟩ <;>
      simp [initial, loadMail, MailProcess.heard]
  process := by simp [initial]

/-- A send that commits nothing performs no file operation. -/
def NoCommit (r : List MailOp × SendResult) : Prop :=
  r.1 = [] ∧ ∀ name sent, r.2 ≠ .committed name sent

theorem noCommit_refused (reason : Bytes) : NoCommit ([], .refused reason) :=
  ⟨rfl, fun _ _ h => SendResult.noConfusion h⟩

theorem noCommit_waiting : NoCommit ([], .waiting) :=
  ⟨rfl, fun _ _ h => SendResult.noConfusion h⟩

/-- What a send does to a mailbox of readable messages: nothing, or it commits
one file. -/
theorem sendMail_cases [DoubleText] (h : w.Inv) (mail : Mail) (rateLimited : Bool)
    (context : SendContext) :
    NoCommit (sendMail w.box mail rateLimited context) ∨
      ∃ name, name = mailFile (mailStamp (stamped mail context).createdMs context.pid
          context.sequence) (stamped mail context).id ∧
        sendMail w.box mail rateLimited context =
          ([.commit name (stamped mail context)], .committed name (stamped mail context)) := by
  obtain ⟨hn, hr⟩ := h.box.new_named h.accepted
  rw [sendMail, readPending_eq hn hr]
  dsimp only
  -- The ways out in the order of the source; only the last commits.
  by_cases hto : (!validId mail.recipient) = true
  · rw [if_pos hto]
    exact .inl (noCommit_refused _)
  rw [if_neg hto]
  by_cases hhops : mail.hops ≥ kMailMaxHops
  · rw [if_pos hhops]
    exact .inl (noCommit_refused _)
  rw [if_neg hhops]
  by_cases hid : (stamped mail context).id = []
  · rw [if_pos hid]
    exact .inl (noCommit_refused _)
  rw [if_neg hid]
  by_cases hsize : (mailToJson (stamped mail context)).dump.length > kMailBytes
  · rw [if_pos hsize]
    exact .inl (noCommit_refused _)
  rw [if_neg hsize]
  by_cases hsame : (w.box.new.any fun e => sameMail (mail.id ≠ []) (stamped mail context) e.2) = true
  · rw [if_pos hsame]
    exact .inl noCommit_waiting
  rw [if_neg hsame]
  by_cases hfull : w.box.new.length ≥ kMailboxPending
  · rw [if_pos hfull]
    exact .inl (noCommit_refused _)
  rw [if_neg hfull]
  by_cases hrate : (rateLimited && context.overRate) = true
  · rw [if_pos hrate]
    exact .inl (noCommit_refused _)
  rw [if_neg hrate]
  by_cases hwrite : context.writeError ≠ []
  · rw [if_pos hwrite]
    exact .inl (noCommit_refused _)
  rw [if_neg hwrite]
  exact .inr ⟨_, rfl, rfl⟩

/-- A committed message joins what was accepted. -/
theorem accepted_cons (h : AcceptedInv w.accepted) {name : Bytes} {sent : Mail}
    (hnamed : Named (name, sent)) (hr : readable sent = true)
    (hfresh : ∀ e ∈ w.accepted, e.1 ≠ name)
    (htext : ∀ e ∈ w.accepted, e.2.id = sent.id → mailText e.2 = mailText sent) :
    AcceptedInv ((name, sent) :: w.accepted) := by
  refine ⟨?_, ?_, ?_, ?_⟩
  · exact List.forall_mem_cons.mpr ⟨hnamed, h.named⟩
  · exact List.forall_mem_cons.mpr ⟨hr, h.readable⟩
  · intro e he e' he' hname
    rcases List.mem_cons.mp he with rfl | he <;> rcases List.mem_cons.mp he' with rfl | he'
    · rfl
    · exact absurd hname.symm (hfresh e' he')
    · exact absurd hname (hfresh e he)
    · exact h.unique e he e' he' hname
  · intro e he e' he' hid
    rcases List.mem_cons.mp he with rfl | he <;> rcases List.mem_cons.mp he' with rfl | he'
    · rfl
    · exact (htext e' he' hid.symm).symm
    · exact htext e he hid
    · exact h.text e he e' he' hid

/-- A committed message is in the mailbox. -/
theorem box_commit (h : BoxInv w.accepted w.now w.record w.box) {name : Bytes} {sent : Mail}
    (hfresh : ∀ e ∈ w.accepted, e.1 ≠ name) :
    BoxInv ((name, sent) :: w.accepted) w.now w.record (w.box.apply (.commit name sent)) := by
  refine ⟨fun e he => ?_, List.forall_mem_cons.mpr ⟨?_, fun e he => ?_⟩⟩
  · rcases mem_files.mp he with he | he
    · rcases Assoc.eq_or_mem_of_mem_insert he with rfl | he
      · exact List.mem_cons_self
      · exact List.mem_cons_of_mem _ (h.mem_accepted e (mem_files.mpr (.inl he)))
    · exact List.mem_cons_of_mem _ (h.mem_accepted e (mem_files.mpr (.inr he)))
  · exact .inl (mem_files.mpr (.inl (Assoc.mem_insert_self _ _ _)))
  · rcases h.kept e he with hf | hlost
    · refine .inl (mem_files.mpr ((mem_files.mp hf).imp_left fun hnew => ?_))
      exact Assoc.mem_insert_of_ne hnew (hfresh e he)
    · exact .inr hlost

/-- A send keeps the invariant. -/
theorem inv_send [DoubleText] (h : w.Inv) {mail : Mail} {rateLimited : Bool}
    {context : SendContext} (hok : w.Given (.send mail rateLimited context)) :
    (w.step (.send mail rateLimited context)).Inv := by
  obtain ⟨hr, hfresh, htext⟩ := hok
  rcases sendMail_cases h mail rateLimited context with ⟨hops, hres⟩ | ⟨name, rfl, hsend⟩
  · have hstep : w.step (.send mail rateLimited context) = w := by
      rw [step]
      rcases hs : sendMail w.box mail rateLimited context with ⟨ops, result⟩
      rw [hs] at hops hres
      obtain rfl : ops = [] := hops
      cases result with
      | refused reason => rfl
      | waiting => rfl
      | committed name sent => exact absurd rfl (hres name sent)
    rw [hstep]
    exact h
  · have hsub : w.accepted ⊆ _ :: w.accepted := List.subset_cons_self
      (mailFile (mailStamp (stamped mail context).createdMs context.pid context.sequence)
        (stamped mail context).id, stamped mail context) w.accepted
    have hcur : ∀ e ∈ w.box.cur, e ∈ (w.box.apply (.commit
        (mailFile (mailStamp (stamped mail context).createdMs context.pid context.sequence)
          (stamped mail context).id) (stamped mail context))).cur := fun e he => he
    rw [step, hsend]
    dsimp only
    refine ⟨accepted_cons h.accepted (named_sent _ _ _) hr hfresh htext,
      box_commit h.box hfresh, (h.loaded.load_box _).of_accepted hsub, fun p hp => ?_⟩
    exact ((h.process p hp).of_cur hcur).of_accepted hsub

/-- The record after a call has all it had, and can be loaded. -/
theorem call_record (h : w.Inv) {p : MailProcess} (hp : w.process = some p) (call : MailCall) :
    w.record.transcript ⊆ ((call.writes p).getD w.record).transcript ∧
      ∀ box, ProcessInv w.accepted ((call.writes p).getD w.record) box
        (loadMail ((call.writes p).getD w.record)) := by
  cases call with
  | take accept => exact ⟨List.Subset.refl _, h.loaded.load_box⟩
  | deliver allowed => exact ⟨List.Subset.refl _, h.loaded.load_box⟩
  | save => exact ⟨(h.process p hp).extends_record, (h.process p hp).load⟩

/-- An operation of a call loses nothing; only an acknowledgement needs the
files to be told apart by their ends. -/
theorem call_legal (h : w.Inv) {call : MailCall} {p : MailProcess} (hp : w.process = some p)
    (htimely : call.Timely p w.box w.now) {op : MailOp} (hop : op ∈ (call.run p w.box w.now).1)
    (hd : op.isAck = true → DistinctTails w.box.files) :
    op.Legal w.accepted w.now ((call.writes p).getD w.record) := by
  have hinv := h.process p hp
  cases call with
  | take accept => exact takeMail_legal h.accepted h.box accept op hop
  | deliver allowed =>
    rcases List.mem_append.mp hop with htake | hloop
    · exact takeMail_legal h.accepted h.box allowed op htake
    · obtain ⟨name, rfl⟩ := deliverLoop_acks op hloop
      exact (deliverMail_inv h.accepted h.box hinv (fun _ => hd rfl) htimely).1 _ hop
  | save =>
    obtain ⟨name, rfl⟩ := ackMail_acks op hop
    exact saved_legal h.accepted h.box hinv (fun _ => hd rfl) _ hop

/-- What a call leaves is again a runtime beside its record and mailbox. -/
theorem call_process (h : w.Inv) {call : MailCall} {p : MailProcess} (hp : w.process = some p)
    (htimely : call.Timely p w.box w.now)
    (hd : (call.run p w.box w.now).1.any MailOp.isAck = true → DistinctTails w.box.files) :
    ProcessInv w.accepted ((call.writes p).getD w.record)
      ((call.run p w.box w.now).1.foldl Mailbox.apply w.box) (call.run p w.box w.now).2 := by
  have hinv := h.process p hp
  cases call with
  | take accept =>
    exact hinv.of_cur (applyAll_isTake h.accepted h.box (takeMail_legal h.accepted h.box accept)
      (takeMail_isTake h.accepted h.box accept)).2
  | deliver allowed => exact (deliverMail_inv h.accepted h.box hinv hd htimely).2
  | save => exact hinv.save hd

theorem mem_run_of_cutOps {call : MailCall} {p : MailProcess} {box : Mailbox} {now : Int}
    {after : Nat} {op : MailOp} (h : op ∈ call.cutOps p box now after) :
    op ∈ (call.run p box now).1 := by
  cases call with
  | take accept => exact List.mem_of_mem_take h
  | deliver allowed => exact List.mem_of_mem_take h
  | save => exact List.mem_of_mem_take h

/-- **Step lemma**: every event that meets its condition keeps the
invariant. -/
theorem inv_step [DoubleText] (w : MailWorld) (e : MailEvent) (h : w.Inv)
    (hok : w.Given e ∧ w.Unambiguous e) : (w.step e).Inv := by
  cases e with
  | clock passed =>
    have hnow : w.now ≤ w.now + passed := by omega
    exact ⟨h.accepted, h.box.mono hnow (List.Subset.refl _), h.loaded, h.process⟩
  | send mail rateLimited context => exact inv_send h hok.1
  | enter i =>
    refine ⟨h.accepted, h.box, h.loaded, fun p hp => ?_⟩
    obtain ⟨p', hp', rfl⟩ := Option.map_eq_some_iff.mp hp
    exact (h.process p' hp').enter i
  | call call =>
    rw [step]
    rcases hp : w.process with - | p
    · exact h
    · obtain ⟨hrec, hload⟩ := call_record h hp call
      -- An acknowledgement is performed only where the tails are distinct.
      have hlegal : ∀ op ∈ (call.run p w.box w.now).1, op.Legal w.accepted w.now
          ((call.writes p).getD w.record) := fun op hop =>
        call_legal h hp (hok.1 p hp) hop fun hack =>
          hok.2 p hp (List.any_eq_true.mpr ⟨op, hop, hack⟩)
      refine ⟨h.accepted, (h.box.mono le_rfl hrec).applyAll h.accepted hlegal, hload _,
        fun p' hp' => ?_⟩
      obtain rfl := Option.some.inj hp'
      exact call_process h hp (hok.1 p hp) (hok.2 p hp)
  | crash call after =>
    rw [step]
    rcases hp : w.process with - | p
    · exact h
    · obtain ⟨hrec, hload⟩ := call_record h hp call
      -- Only the operations before the crash count, and they are among all of them.
      have hbox := (h.box.mono le_rfl hrec).applyAll h.accepted fun op hop =>
        call_legal h hp (hok.1 p hp) (mem_run_of_cutOps hop) fun hack =>
          hok.2 p hp (List.any_eq_true.mpr ⟨op, hop, hack⟩)
      have hend : ∀ box record p', (none : Option MailProcess) = some p' →
          ProcessInv w.accepted record box p' := by simp
      cases call with
      | take accept => exact ⟨h.accepted, hbox, hload _, hend _ _⟩
      | deliver allowed => exact ⟨h.accepted, hbox, hload _, hend _ _⟩
      | save =>
        -- The record is the first thing a save writes.
        cases after with
        | zero => exact ⟨h.accepted, h.box, h.loaded, hend _ _⟩
        | succ after => exact ⟨h.accepted, hbox, hload _, hend _ _⟩
  | start =>
    rw [step]
    rcases hp : w.process with - | p
    · refine ⟨h.accepted, h.box.applyAll h.accepted (recoverMail_legal _), h.loaded.load_box _,
        fun p' hp' => ?_⟩
      obtain rfl := Option.some.inj hp'
      exact h.loaded.load_box _
    · exact h
  | startCrash after =>
    rw [step]
    rcases hp : w.process with - | p
    · exact ⟨h.accepted, h.box.applyTake h.accepted (recoverMail_legal _) after,
        h.loaded.load_box _, by simp⟩
    · exact h

end MailWorld

/-- **No mail is lost and none enters twice**, in every run whose events meet
their conditions; and an acknowledgement removes the files of its ids and no
other exactly when no other file's name ends like one of theirs. -/
theorem mail_kept_and_entered_once [DoubleText] {w : MailWorld}
    (h : Run MailWorld.step (fun w e => w.Given e ∧ w.Unambiguous e) MailWorld.initial w) :
    w.Kept ∧ w.Once ∧ ∀ ids,
      (∀ e ∈ w.box.cur, MailOp.ack e.1 ∈ ackMail w.box.cur ids ↔ e.2.id ∈ ids) ↔
        NoOtherTail w.box.cur ids := by
  have hinv : w.Inv := h.invariant MailWorld.inv_initial MailWorld.inv_step
  refine ⟨hinv.box.kept, ?_, fun ids => ackMail_exact_iff_noOtherTail (fun e he => ?_) ids⟩
  · have := hinv.loaded.heard_nodup
    simpa [MailProcess.heard, loadMail, MailWorld.Once] using this
  · exact hinv.accepted.named e (hinv.box.mem_accepted e (mem_files.mpr (.inr he)))

/-! ### Two runs -/

/-- A mail that says `text`, and what its send learns. -/
def noteMail (id text : Bytes) : Mail :=
  ⟨id, lit "a", lit "b", lit "a.json", 0, 0, 0, .obj [(lit "text", .str text)]⟩

def noteContext (sequence : Nat) : SendContext := ⟨1000, lit "t", 7, sequence, false, []⟩

/-- Two mails arrive; the second joins the conversation and is saved; the
runtime ends before the first one joins. -/
def twoMails (first second : Bytes) : List MailEvent :=
  [.send (noteMail first (lit "one")) true (noteContext 0),
    .send (noteMail second (lit "two")) true (noteContext 1), .start,
    .call (.deliver fun _ => true), .enter 1, .call .save, .crash .save 0]

theorem mail_kept_of_twoMails :
    ((twoMails (lit "a-1") (lit "b-2")).foldl (@MailWorld.step Json.bitsText)
      MailWorld.initial).Kept := by
  let _ := Json.bitsText
  exact (mail_kept_and_entered_once (.of_allOk (by decide +kernel))).1

/-- Acknowledging "1" removes the file of "x-1", which is then nowhere. -/
theorem mail_lost_by_acknowledgement :
    ∃ w, Run (@MailWorld.step Json.bitsText) MailWorld.Given MailWorld.initial w ∧ ¬ w.Kept := by
  let _ := Json.bitsText
  exact ⟨(twoMails (lit "x-1") (lit "1")).foldl MailWorld.step MailWorld.initial,
    .of_allOk (by decide +kernel), by decide +kernel⟩

end UAgent
