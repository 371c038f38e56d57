/-
UAgent/App/OutcomeStore.lean

The host's receipts for the commands it forwards to runtimes
(src/app/outcome_store.cc).

`SendCommand` holds the lock twice: it registers a pending receipt, sends
with the lock released, and takes it again to record that the send failed.
Between the two parts anything may happen, so they are two steps here, and
`sending` holds the calls in between.  A receipt is shared: the map and the
callers hold its address, and a caller may write to a receipt the map has
given up since.  A call whose send succeeded only waits for its receipt and
reads it; that changes nothing and is left out.

`clientOf` is the request id a receipt is filed under for the client.  Main
result: `outcomes_sound`, for every list of steps in any order.
-/
import UAgent.App.ReceiptLog

namespace UAgent

open Bytes

/-- `kMaxOutcomes`. -/
def kMaxOutcomes : Nat := 512

/-- A call of `SendCommand` between its two locked parts. -/
structure Sender (σ : Type*) where
  session : σ
  workerRequest : Bytes
  clientRequest : Bytes
  receipt : Nat

/-- `OutcomeStore`, with the receipts by address and what each session
awaits. -/
structure OutcomeStore (σ : Type*) where
  outcomes : BoundedStore Bytes Nat := {}
  heap : List Json := []
  awaiting : σ → List Bytes := fun _ => []
  sending : List (Sender σ) := []

namespace OutcomeStore

variable {σ : Type*} [DecidableEq σ]

/-! ### Receipts -/

def pendingReceipt (clientRequest : Bytes) : Json :=
  .ofFields [(lit "request_id", .str clientRequest), (lit "accepted", .bool true),
    (lit "pending", .bool true)]

def failedReceipt (clientRequest error : Bytes) : Json :=
  .ofFields [(lit "request_id", .str clientRequest), (lit "accepted", .bool false),
    (lit "error", .str error)]

/-- The receipt of a command the worker answered. -/
def resolvedReceipt (clientRequest : Bytes) (frame : Json) : Json :=
  .ofFields [(lit "request_id", .str clientRequest),
    (lit "accepted", .bool (jsonValueBool frame (lit "accepted") false)),
    (lit "pending", .bool (isPending frame)),
    (lit "error", .str (jsonValueStr frame (lit "error") [])),
    (lit "result", jsonValue frame (lit "result") (.obj []))]

/-- `JsonValue(receipt, "request_id", "")`. -/
def clientOf (receipt : Json) : Bytes := jsonValueStr receipt (lit "request_id") []

/-- `JsonValue(receipt, "accepted", false)`. -/
def isAccepted (receipt : Json) : Bool := jsonValueBool receipt (lit "accepted") false

/-- The receipt at an address. -/
def receiptAt (s : OutcomeStore σ) (receipt : Nat) : Json := (s.heap[receipt]?).getD .null

/-- `*receipt = value`. -/
def write (s : OutcomeStore σ) (receipt : Nat) (value : Json) : OutcomeStore σ :=
  { s with heap := s.heap.set receipt value }

/-- `std::erase(session->awaiting, worker_request)`. -/
def stopAwaiting (s : OutcomeStore σ) (session : σ) (workerRequest : Bytes) : OutcomeStore σ :=
  { s with
    awaiting := Function.update s.awaiting session
      ((s.awaiting session).filter (· ≠ workerRequest)) }

/-! ### Steps -/

/-- The receipt is registered as pending and the session awaits it. -/
def register (s : OutcomeStore σ) (session : σ) (workerRequest clientRequest : Bytes)
    (receipt : Nat) : OutcomeStore σ :=
  let s := s.write receipt (pendingReceipt clientRequest)
  { s with
    awaiting := Function.update s.awaiting session (s.awaiting session ++ [workerRequest])
    sending := s.sending ++ [⟨session, workerRequest, clientRequest, receipt⟩] }

/-- A new receipt under a new id. -/
def admitRequest (s : OutcomeStore σ) (outcomes : BoundedStore Bytes Nat) (workerRequest : Bytes) :
    OutcomeStore σ :=
  { s with outcomes := outcomes.push workerRequest s.heap.length, heap := s.heap ++ [Json.null] }

/-- The first locked part of `SendCommand`: an id that is held keeps its
receipt, a new one needs room.  The value is what a refused call returns. -/
def begin (s : OutcomeStore σ) (session : σ) (workerRequest clientRequest : Bytes) :
    Option Json × OutcomeStore σ :=
  match s.outcomes.get? workerRequest with
  | some receipt => (none, s.register session workerRequest clientRequest receipt)
  | none =>
    match s.outcomes.makeRoom kMaxOutcomes fun receipt => !isPending (s.receiptAt receipt) with
    | none =>
      (some (failedReceipt clientRequest (lit "too many unacknowledged worker commands")), s)
    | some outcomes =>
      (none, (s.admitRequest outcomes workerRequest).register session workerRequest clientRequest
        s.heap.length)

/-- The end of the `i`-th send: a failed one takes the lock again. -/
def sent (s : OutcomeStore σ) (i : Nat) (ok : Bool) : OutcomeStore σ :=
  match s.sending[i]? with
  | none => s
  | some sender =>
    let s := { s with sending := s.sending.eraseIdx i }
    if ok then s
    else
      (s.stopAwaiting sender.session sender.workerRequest).write sender.receipt
        (failedReceipt sender.clientRequest (lit "worker is disconnected"))

/-- `OutcomeStore::ResolveOutcome`: whether the frame was known, the frame as
it is left, and the store. -/
def resolveOutcome (s : OutcomeStore σ) (session : σ) (frame : Json) :
    Bool × Json × OutcomeStore σ :=
  let workerRequest := ReceiptLog.answered frame
  match s.outcomes.get? workerRequest with
  | none => (false, frame, s)
  | some receipt =>
    let clientRequest := clientOf (s.receiptAt receipt)
    let frame := frame.set (lit "request_id") (.str clientRequest)
    let s := s.write receipt (resolvedReceipt clientRequest frame)
    (true, frame, if isPending frame then s else s.stopAwaiting session workerRequest)

/-- One round of the loop of `FailPending`. -/
def failOne (s : OutcomeStore σ) (workerRequest : Bytes) : OutcomeStore σ :=
  match s.outcomes.get? workerRequest with
  | none => s
  | some receipt =>
    s.write receipt (failedReceipt (clientOf (s.receiptAt receipt))
      (lit "worker closed before acknowledgement; inspect history before retrying"))

/-- `OutcomeStore::FailPending`. -/
def failPending (s : OutcomeStore σ) (session : σ) : OutcomeStore σ :=
  let s := (s.awaiting session).foldl failOne s
  { s with awaiting := Function.update s.awaiting session [] }

/-- A step of any thread. -/
inductive Step (σ : Type*) where
  | begin (session : σ) (workerRequest clientRequest : Bytes)
  | sent (i : Nat) (ok : Bool)
  | resolve (session : σ) (frame : Json)
  | fail (session : σ)

def step (s : OutcomeStore σ) : Step σ → OutcomeStore σ
  | .begin session workerRequest clientRequest =>
    (s.begin session workerRequest clientRequest).2
  | .sent i ok => s.sent i ok
  | .resolve session frame => (s.resolveOutcome session frame).2.2
  | .fail session => s.failPending session

/-! ### Receipts that are written -/

section Receipts

@[simp] theorem isPending_pendingReceipt (c : Bytes) : isPending (pendingReceipt c) = true := rfl

@[simp] theorem isPending_failedReceipt (c e : Bytes) : isPending (failedReceipt c e) = false := rfl

@[simp] theorem isPending_resolvedReceipt (c : Bytes) (frame : Json) :
    isPending (resolvedReceipt c frame) = isPending frame := rfl

@[simp] theorem isAccepted_resolvedReceipt (c : Bytes) (frame : Json) :
    isAccepted (resolvedReceipt c frame) = isAccepted frame := rfl

@[simp] theorem clientOf_pendingReceipt (c : Bytes) : clientOf (pendingReceipt c) = c := rfl

@[simp] theorem clientOf_failedReceipt (c e : Bytes) : clientOf (failedReceipt c e) = c := rfl

@[simp] theorem clientOf_resolvedReceipt (c : Bytes) (frame : Json) :
    clientOf (resolvedReceipt c frame) = c := rfl

/-- Relabelling a frame leaves its other fields. -/
theorem jsonValueBool_set_ne {key k : Bytes} (h : key ≠ k) (frame v : Json) (fallback : Bool) :
    jsonValueBool (frame.set k v) key fallback = jsonValueBool frame key fallback := by
  cases frame with
  | obj fields => simp [jsonValueBool, Assoc.lookup_insert_ne h]
  | null => simp [jsonValueBool, Json.set, Assoc.lookup_cons, Ne.symm h, Json.get?]
  | _ => rfl

@[simp] theorem isPending_relabel (frame v : Json) :
    isPending (frame.set (lit "request_id") v) = isPending frame :=
  jsonValueBool_set_ne (by decide) frame v false

@[simp] theorem isAccepted_relabel (frame v : Json) :
    isAccepted (frame.set (lit "request_id") v) = isAccepted frame :=
  jsonValueBool_set_ne (by decide) frame v false

end Receipts

omit [DecidableEq σ] in
theorem receiptAt_write {s : OutcomeStore σ} {p : Nat} (h : p < s.heap.length) (v : Json) (q : Nat) :
    (s.write p v).receiptAt q = if q = p then v else s.receiptAt q := by
  rw [receiptAt, receiptAt, write, List.getElem?_set]
  split_ifs with hq hp <;> first | rfl | simp_all

omit [DecidableEq σ] in
@[simp] theorem length_heap_write (s : OutcomeStore σ) (p : Nat) (v : Json) :
    (s.write p v).heap.length = s.heap.length := List.length_set

/-! ### The shape of the store -/

/-- An address that is in use by one worker request at most. -/
def OnlyFor (s : OutcomeStore σ) (p : Nat) (id : Bytes) : Prop :=
  p < s.heap.length ∧ ∀ j, s.outcomes.get? j = some p → j = id

/-- The bound and the agreement of order and map hold; no two requests share
a receipt; a caller writes to the receipt of its own request; and a receipt
names a client request that was sent under its worker request. -/
structure Inv (called : Bytes → Bytes → Prop) (s : OutcomeStore σ) : Prop where
  sound : BoundedStore.Sound kMaxOutcomes s.outcomes
  held : ∀ id p, s.outcomes.get? id = some p →
    s.OnlyFor p id ∧ called id (clientOf (s.receiptAt p))
  callers : ∀ sender ∈ s.sending,
    s.OnlyFor sender.receipt sender.workerRequest ∧
      called sender.workerRequest sender.clientRequest

variable {called : Bytes → Bytes → Prop} {s : OutcomeStore σ}

omit [DecidableEq σ] in
theorem Inv.empty : Inv called ({} : OutcomeStore σ) where
  sound := .empty _
  held _ _ h := nomatch h
  callers _ h := nomatch h

omit [DecidableEq σ] in
/-- A receipt is written for its own request. -/
theorem Inv.write (h : Inv called s) {p : Nat} {id : Bytes} (hp : s.OnlyFor p id) {v : Json}
    (hv : called id (clientOf v)) : Inv called (s.write p v) where
  sound := h.sound
  held j q hj := by
    obtain ⟨⟨hlt, honly⟩, hcalled⟩ := h.held j q hj
    refine ⟨⟨by rwa [length_heap_write], honly⟩, ?_⟩
    rw [receiptAt_write hp.1]
    split_ifs with hq
    · subst hq
      rw [hp.2 j hj]
      exact hv
    · exact hcalled
  callers sender hs := by
    obtain ⟨⟨hlt, honly⟩, hcalled⟩ := h.callers sender hs
    exact ⟨⟨by rwa [length_heap_write], honly⟩, hcalled⟩

omit [DecidableEq σ] in
/-- Who awaits what is no part of the shape. -/
theorem Inv.awaiting (h : Inv called s) (awaiting : σ → List Bytes) :
    Inv called { s with awaiting } := ⟨h.sound, h.held, h.callers⟩

theorem Inv.stopAwaiting (h : Inv called s) (session : σ) (id : Bytes) :
    Inv called (s.stopAwaiting session id) := h.awaiting _

theorem Inv.register (h : Inv called s) {p : Nat} {id client : Bytes} (hp : s.OnlyFor p id)
    (hcalled : called id client) (session : σ) : Inv called (s.register session id client p) := by
  have hw := h.write hp (v := pendingReceipt client) hcalled
  refine ⟨hw.sound, hw.held, fun sender hs => ?_⟩
  rcases List.mem_append.mp hs with hs | hs
  · exact hw.callers sender hs
  · obtain rfl := List.mem_singleton.mp hs
    exact ⟨⟨(length_heap_write s p _).symm ▸ hp.1, hp.2⟩, hcalled⟩

omit [DecidableEq σ] in
theorem receiptAt_admitRequest (s : OutcomeStore σ) (outcomes : BoundedStore Bytes Nat) (id : Bytes)
    (q : Nat) : (s.admitRequest outcomes id).receiptAt q = s.receiptAt q := by
  simp only [receiptAt, admitRequest, List.getElem?_append]
  split_ifs with hq
  · rfl
  · rw [List.getElem?_eq_none (Nat.not_lt.mp hq)]
    rcases q - s.heap.length with - | n <;> rfl

omit [DecidableEq σ] in
/-- A new receipt is under its own id only, and takes no one's address. -/
theorem OnlyFor.admitRequest {outcomes : BoundedStore Bytes Nat} {id j : Bytes} {mayGo : Nat → Bool}
    {p : Nat} (hroom : s.outcomes.makeRoom kMaxOutcomes mayGo = some outcomes)
    (h : s.OnlyFor p j) : (s.admitRequest outcomes id).OnlyFor p j := by
  refine ⟨?_, fun i hi => ?_⟩
  · simp only [OutcomeStore.admitRequest, List.length_append]
    exact Nat.lt_add_right _ h.1
  · change (outcomes.push id s.heap.length).get? i = some p at hi
    rw [BoundedStore.get?_push] at hi
    split_ifs at hi
    · exact absurd (Option.some.inj hi) h.1.ne'
    · exact h.2 i (BoundedStore.get?_of_makeRoom hroom hi)

/-- A new request gets a receipt of its own. -/
theorem Inv.admitRequest_register (h : Inv called s) {id client : Bytes} {mayGo : Nat → Bool}
    {outcomes : BoundedStore Bytes Nat} (hnone : s.outcomes.get? id = none)
    (hroom : s.outcomes.makeRoom kMaxOutcomes mayGo = some outcomes) (hcalled : called id client)
    (session : σ) :
    Inv called ((s.admitRequest outcomes id).register session id client s.heap.length) := by
  obtain ⟨hsound, hlt⟩ := h.sound.makeRoom hroom
  have hnew : (s.admitRequest outcomes id).OnlyFor s.heap.length id := by
    refine ⟨by simp [OutcomeStore.admitRequest], fun i hi => ?_⟩
    change (outcomes.push id s.heap.length).get? i = some _ at hi
    rw [BoundedStore.get?_push] at hi
    split_ifs at hi with heq
    · exact heq
    · exact absurd (h.held i _ (BoundedStore.get?_of_makeRoom hroom hi)).1.1 (Nat.lt_irrefl _)
  refine ⟨hsound.push (BoundedStore.get?_makeRoom_eq_none hroom hnone) hlt _, ?_, ?_⟩
  · intro j q hj
    change (outcomes.push id s.heap.length).get? j = some q at hj
    rw [BoundedStore.get?_push] at hj
    show ((s.admitRequest outcomes id).write _ _).OnlyFor q j ∧
      called j (clientOf (((s.admitRequest outcomes id).write _ _).receiptAt q))
    rw [receiptAt_write hnew.1, receiptAt_admitRequest]
    split_ifs at hj with heq
    · obtain rfl := Option.some.inj hj
      subst heq
      rw [if_pos rfl]
      exact ⟨⟨(length_heap_write _ _ _).symm ▸ hnew.1, hnew.2⟩, hcalled⟩
    · obtain ⟨honly, hcalled'⟩ := h.held j q (BoundedStore.get?_of_makeRoom hroom hj)
      have hadmit : (s.admitRequest outcomes id).OnlyFor _ _ := honly.admitRequest hroom
      rw [if_neg honly.1.ne]
      exact ⟨⟨(length_heap_write _ _ _).symm ▸ hadmit.1, hadmit.2⟩, hcalled'⟩
  · intro sender hs
    rcases List.mem_append.mp hs with hs | hs
    · obtain ⟨honly, hcalled'⟩ := h.callers sender hs
      have hadmit : (s.admitRequest outcomes id).OnlyFor _ _ := honly.admitRequest hroom
      exact ⟨⟨(length_heap_write _ _ _).symm ▸ hadmit.1, hadmit.2⟩, hcalled'⟩
    · obtain rfl := List.mem_singleton.mp hs
      exact ⟨⟨(length_heap_write _ _ _).symm ▸ hnew.1, hnew.2⟩, hcalled⟩

/-- What `begin` may do: use the receipt that is held, refuse, or take the request in. -/
theorem begin_cases (s : OutcomeStore σ) (session : σ) (id client : Bytes) :
    (∃ p, s.outcomes.get? id = some p ∧
      (s.begin session id client).2 = s.register session id client p) ∨
    (s.outcomes.get? id = none ∧ (s.begin session id client).2 = s) ∨
    ∃ outcomes, s.outcomes.get? id = none ∧
      (s.outcomes.makeRoom kMaxOutcomes fun p => !isPending (s.receiptAt p)) = some outcomes ∧
      (s.begin session id client).2 =
        (s.admitRequest outcomes id).register session id client s.heap.length := by
  rcases hheld : s.outcomes.get? id with - | p
  · rcases hroom : s.outcomes.makeRoom kMaxOutcomes fun p => !isPending (s.receiptAt p)
      with - | outcomes
    · refine .inr (.inl ⟨rfl, ?_⟩)
      simp only [OutcomeStore.begin, hheld, hroom]
    · refine .inr (.inr ⟨outcomes, rfl, rfl, ?_⟩)
      simp only [OutcomeStore.begin, hheld, hroom]
  · refine .inl ⟨p, rfl, ?_⟩
    simp only [OutcomeStore.begin, hheld]

/-- What the end of a send may do: nothing but leave, or fail its receipt. -/
theorem sent_cases (s : OutcomeStore σ) (i : Nat) (ok : Bool) :
    s.sent i ok = s ∨ ∃ sender, s.sending[i]? = some sender ∧
      ((ok = true ∧ s.sent i ok = { s with sending := s.sending.eraseIdx i }) ∨
      (ok = false ∧ s.sent i ok =
        (({ s with sending := s.sending.eraseIdx i } : OutcomeStore σ).stopAwaiting sender.session
          sender.workerRequest).write sender.receipt
            (failedReceipt sender.clientRequest (lit "worker is disconnected")))) := by
  rcases hi : s.sending[i]? with - | sender
  · exact .inl (by simp only [sent, hi])
  · refine .inr ⟨sender, rfl, ?_⟩
    cases ok with
    | true => exact .inl ⟨rfl, by simp [sent, hi]⟩
    | false => exact .inr ⟨rfl, by simp [sent, hi]⟩

/-- What a frame may do: nothing, or resolve the receipt of its request. -/
theorem resolveOutcome_cases (s : OutcomeStore σ) (session : σ) (frame : Json) :
    (s.outcomes.get? (ReceiptLog.answered frame) = none ∧
      s.resolveOutcome session frame = (false, frame, s)) ∨
    ∃ p, s.outcomes.get? (ReceiptLog.answered frame) = some p ∧
      s.resolveOutcome session frame =
        (true, frame.set (lit "request_id") (.str (clientOf (s.receiptAt p))),
          if isPending frame then s.write p (resolvedReceipt (clientOf (s.receiptAt p))
            (frame.set (lit "request_id") (.str (clientOf (s.receiptAt p)))))
          else (s.write p (resolvedReceipt (clientOf (s.receiptAt p))
            (frame.set (lit "request_id") (.str (clientOf (s.receiptAt p)))))).stopAwaiting session
              (ReceiptLog.answered frame)) := by
  rcases hheld : s.outcomes.get? (ReceiptLog.answered frame) with - | p
  · exact .inl ⟨rfl, by simp only [resolveOutcome, hheld]⟩
  · exact .inr ⟨p, rfl, by simp only [resolveOutcome, hheld, isPending_relabel]⟩

/-! ### Failing what a session awaits -/

omit [DecidableEq σ] in
theorem failOne_cases (s : OutcomeStore σ) (id : Bytes) :
    (s.outcomes.get? id = none ∧ s.failOne id = s) ∨ ∃ p e, s.outcomes.get? id = some p ∧
      s.failOne id = s.write p (failedReceipt (clientOf (s.receiptAt p)) e) := by
  rcases hheld : s.outcomes.get? id with - | p
  · exact .inl ⟨rfl, by simp only [failOne, hheld]⟩
  · refine .inr ⟨p, lit "worker closed before acknowledgement; inspect history before retrying",
      rfl, ?_⟩
    simp only [failOne, hheld]

omit [DecidableEq σ] in
theorem Inv.failOne (h : Inv called s) (id : Bytes) : Inv called (s.failOne id) := by
  rcases s.failOne_cases id with ⟨-, hfail⟩ | ⟨p, e, hp, hfail⟩
  · rw [hfail]
    exact h
  · obtain ⟨honly, hcalled⟩ := h.held id p hp
    rw [hfail]
    exact h.write honly hcalled

omit [DecidableEq σ] in
/-- Failing receipts touches nothing else. -/
theorem foldl_failOne_frame (ids : List Bytes) (s : OutcomeStore σ) :
    (ids.foldl failOne s).outcomes = s.outcomes ∧ (ids.foldl failOne s).awaiting = s.awaiting ∧
      (ids.foldl failOne s).sending = s.sending := by
  induction ids generalizing s with
  | nil => exact ⟨rfl, rfl, rfl⟩
  | cons id ids ih =>
    obtain ⟨hout, hawait, hsend⟩ := ih (s.failOne id)
    rw [List.foldl_cons, hout, hawait, hsend]
    rcases s.failOne_cases id with ⟨-, hfail⟩ | ⟨p, e, -, hfail⟩
    · rw [hfail]
      exact ⟨rfl, rfl, rfl⟩
    · rw [hfail]
      exact ⟨rfl, rfl, rfl⟩

omit [DecidableEq σ] in
theorem Inv.foldl_failOne (h : Inv called s) (ids : List Bytes) :
    Inv called (ids.foldl OutcomeStore.failOne s) := by
  induction ids generalizing s with
  | nil => exact h
  | cons id ids ih => exact ih (h.failOne id)

omit [DecidableEq σ] in
/-- A receipt that none of the requests is filed under stays. -/
theorem receiptAt_foldl_failOne (h : Inv called s) {ids : List Bytes} {q : Nat}
    (hq : ∀ id ∈ ids, s.outcomes.get? id ≠ some q) :
    (ids.foldl OutcomeStore.failOne s).receiptAt q = s.receiptAt q := by
  induction ids generalizing s with
  | nil => rfl
  | cons id ids ih =>
    have hout : (s.failOne id).outcomes = s.outcomes := (foldl_failOne_frame [id] s).1
    rw [List.foldl_cons, ih (h.failOne id) fun j hj => hout ▸ hq j (List.mem_cons_of_mem _ hj)]
    rcases s.failOne_cases id with ⟨-, hfail⟩ | ⟨p, e, hp, hfail⟩
    · rw [hfail]
    · rw [hfail, receiptAt_write (h.held id p hp).1.1, if_neg]
      rintro rfl
      exact hq id List.mem_cons_self hp

omit [DecidableEq σ] in
/-- A receipt that has failed is not pending however many more fail. -/
theorem isPending_foldl_failOne (h : Inv called s) (ids : List Bytes) {q : Nat}
    (hq : isPending (s.receiptAt q) = false) :
    isPending ((ids.foldl OutcomeStore.failOne s).receiptAt q) = false := by
  induction ids generalizing s with
  | nil => exact hq
  | cons id ids ih =>
    refine ih (h.failOne id) ?_
    rcases s.failOne_cases id with ⟨-, hfail⟩ | ⟨p, e, hp, hfail⟩
    · rwa [hfail]
    · rw [hfail, receiptAt_write (h.held id p hp).1.1]
      split_ifs
      · rfl
      · exact hq

omit [DecidableEq σ] in
theorem isPending_foldl_failOne_of_mem (h : Inv called s) {ids : List Bytes} {id : Bytes}
    (hid : id ∈ ids) {p : Nat} (hp : s.outcomes.get? id = some p) :
    isPending ((ids.foldl OutcomeStore.failOne s).receiptAt p) = false := by
  induction ids generalizing s with
  | nil => cases hid
  | cons j ids ih =>
    have hout : (s.failOne j).outcomes = s.outcomes := (foldl_failOne_frame [j] s).1
    rcases List.mem_cons.mp hid with rfl | hid
    · refine isPending_foldl_failOne (h.failOne id) ids ?_
      rcases s.failOne_cases id with ⟨hnone, -⟩ | ⟨q, e, hq, hfail⟩
      · rw [hp] at hnone
        cases hnone
      · obtain rfl : q = p := by simpa [hp] using hq.symm
        rw [hfail, receiptAt_write (h.held id q hq).1.1, if_pos rfl]
        rfl
    · exact ih (h.failOne j) hid (hout ▸ hp)

/-! ### The shape is kept -/

/-- A step whose `SendCommand` is one of the calls. -/
def IsCall (called : Bytes → Bytes → Prop) : Step σ → Prop
  | .begin _ workerRequest clientRequest => called workerRequest clientRequest
  | _ => True

theorem Inv.step (h : Inv called s) {e : Step σ} (he : IsCall called e) :
    Inv called (s.step e) := by
  cases e with
  | begin session id client =>
    show Inv called (s.begin session id client).2
    rcases s.begin_cases session id client with
      ⟨p, hp, hbegin⟩ | ⟨-, hbegin⟩ | ⟨outcomes, hnone, hroom, hbegin⟩
    · rw [hbegin]
      exact h.register (h.held id p hp).1 he session
    · rw [hbegin]
      exact h
    · rw [hbegin]
      exact h.admitRequest_register hnone hroom he session
  | sent i ok =>
    have hleave : Inv called { s with sending := s.sending.eraseIdx i } :=
      ⟨h.sound, h.held, fun sender hs => h.callers sender (List.mem_of_mem_eraseIdx hs)⟩
    show Inv called (s.sent i ok)
    rcases s.sent_cases i ok with hsent | ⟨sender, hi, ⟨-, hsent⟩ | ⟨-, hsent⟩⟩
    · rw [hsent]
      exact h
    · rw [hsent]
      exact hleave
    · obtain ⟨honly, hcalled⟩ := h.callers sender (List.mem_of_getElem? hi)
      rw [hsent]
      exact (hleave.stopAwaiting _ _).write honly hcalled
  | resolve session frame =>
    show Inv called (s.resolveOutcome session frame).2.2
    rcases s.resolveOutcome_cases session frame with ⟨-, hres⟩ | ⟨p, hp, hres⟩
    · rw [hres]
      exact h
    · obtain ⟨honly, hcalled⟩ := h.held _ p hp
      have hw := h.write honly (v := resolvedReceipt (clientOf (s.receiptAt p))
        (frame.set (lit "request_id") (.str (clientOf (s.receiptAt p))))) hcalled
      rw [hres]
      show Inv called (if _ then _ else _)
      split_ifs
      · exact hw
      · exact hw.stopAwaiting _ _
  | fail session => exact (h.foldl_failOne (s.awaiting session)).awaiting _

/-! ### Pending receipts stay -/

theorem get?_step_of_pending {id : Bytes} {p : Nat} (hid : s.outcomes.get? id = some p)
    (hpending : isPending (s.receiptAt p) = true) (e : Step σ) :
    (s.step e).outcomes.get? id = some p := by
  cases e with
  | begin session j client =>
    show (s.begin session j client).2.outcomes.get? id = some p
    rcases s.begin_cases session j client with
      ⟨q, hq, hbegin⟩ | ⟨-, hbegin⟩ | ⟨outcomes, hnone, hroom, hbegin⟩
    · rwa [hbegin]
    · rwa [hbegin]
    · have hkept := BoundedStore.get?_makeRoom_of_spared hroom hid (by simp [hpending])
      rw [hbegin]
      show (outcomes.push j s.heap.length).get? id = some p
      rw [BoundedStore.get?_push, if_neg]
      · exact hkept
      · rintro rfl
        rw [hid] at hnone
        cases hnone
  | sent i ok =>
    show (s.sent i ok).outcomes.get? id = some p
    rcases s.sent_cases i ok with hsent | ⟨sender, -, ⟨-, hsent⟩ | ⟨-, hsent⟩⟩ <;> rwa [hsent]
  | resolve session frame =>
    show (s.resolveOutcome session frame).2.2.outcomes.get? id = some p
    rcases s.resolveOutcome_cases session frame with ⟨-, hres⟩ | ⟨q, -, hres⟩
    · rwa [hres]
    · rw [hres]
      show (if _ then _ else _ : OutcomeStore σ).outcomes.get? id = some p
      split_ifs <;> exact hid
  | fail session =>
    show ((s.awaiting session).foldl OutcomeStore.failOne s).outcomes.get? id = some p
    rwa [(foldl_failOne_frame _ s).1]

/-! ### Final outcomes -/

/-- The steps that write a pending or failed outcome under a request: the
request is sent again, its send fails, its worker says so, or a session that
awaits it is gone. -/
def Unsettles (s : OutcomeStore σ) (id : Bytes) : Step σ → Prop
  | .begin _ workerRequest _ => workerRequest = id
  | .sent i ok => ok = false ∧ ∃ sender, s.sending[i]? = some sender ∧ sender.workerRequest = id
  | .resolve _ frame =>
    ReceiptLog.answered frame = id ∧ (isPending frame = true ∨ isAccepted frame = false)
  | .fail session => id ∈ s.awaiting session

/-- A receipt is written by its own request's steps only, and what they write
is pending or failed only when they say so. -/
theorem receiptAt_step (h : Inv called s) {id : Bytes} {p q : Nat}
    (hid : s.outcomes.get? id = some p) {e : Step σ} (hq : (s.step e).outcomes.get? id = some q) :
    (s.step e).receiptAt q = s.receiptAt p ∨ Unsettles s id e ∨
      (isPending ((s.step e).receiptAt q) = false ∧
        isAccepted ((s.step e).receiptAt q) = true) := by
  cases e with
  | begin session j client =>
    by_cases hj : j = id
    · exact .inr (.inl hj)
    · left
      change (s.begin session j client).2.outcomes.get? id = some q at hq
      show (s.begin session j client).2.receiptAt q = _
      rcases s.begin_cases session j client with
        ⟨r, hr, hbegin⟩ | ⟨-, hbegin⟩ | ⟨outcomes, -, hroom, hbegin⟩
      · rw [hbegin] at hq ⊢
        obtain rfl : p = q := Option.some.inj (hid.symm.trans hq)
        show (s.write r _).receiptAt p = _
        rw [receiptAt_write (h.held j r hr).1.1, if_neg]
        rintro rfl
        exact hj ((h.held id p hid).1.2 j hr)
      · rw [hbegin] at hq ⊢
        rw [Option.some.inj (hid.symm.trans hq)]
      · rw [hbegin] at hq ⊢
        change (outcomes.push j s.heap.length).get? id = some q at hq
        rw [BoundedStore.get?_push, if_neg (Ne.symm hj)] at hq
        have hold := BoundedStore.get?_of_makeRoom hroom hq
        obtain rfl : p = q := Option.some.inj (hid.symm.trans hold)
        show ((s.admitRequest outcomes j).write _ _).receiptAt p = _
        rw [receiptAt_write (by simp [admitRequest]), if_neg (h.held id p hid).1.1.ne,
          receiptAt_admitRequest]
  | sent i ok =>
    change (s.sent i ok).outcomes.get? id = some q at hq
    show (s.sent i ok).receiptAt q = _ ∨ _ ∨ _
    rcases s.sent_cases i ok with hsent | ⟨sender, hi, ⟨-, hsent⟩ | ⟨hok, hsent⟩⟩
    · rw [hsent] at hq
      rw [hsent, Option.some.inj (hid.symm.trans hq)]
      exact .inl rfl
    · rw [hsent] at hq
      obtain rfl : p = q := Option.some.inj (hid.symm.trans hq)
      rw [hsent]
      exact .inl rfl
    · by_cases hw : sender.workerRequest = id
      · exact .inr (.inl ⟨hok, sender, hi, hw⟩)
      · left
        rw [hsent] at hq
        obtain rfl : p = q := Option.some.inj (hid.symm.trans hq)
        obtain ⟨honly, -⟩ := h.callers sender (List.mem_of_getElem? hi)
        rw [hsent]
        show (s.write sender.receipt _).receiptAt p = s.receiptAt p
        rw [receiptAt_write honly.1, if_neg]
        rintro rfl
        exact hw (honly.2 id hid).symm
  | resolve session frame =>
    change (s.resolveOutcome session frame).2.2.outcomes.get? id = some q at hq
    show (s.resolveOutcome session frame).2.2.receiptAt q = _ ∨ _ ∨
      isPending ((s.resolveOutcome session frame).2.2.receiptAt q) = false ∧
        isAccepted ((s.resolveOutcome session frame).2.2.receiptAt q) = true
    rcases s.resolveOutcome_cases session frame with ⟨-, hres⟩ | ⟨r, hr, hres⟩
    · rw [hres] at hq
      rw [hres, Option.some.inj (hid.symm.trans hq)]
      exact .inl rfl
    · have hat : ∀ q, (s.resolveOutcome session frame).2.2.receiptAt q =
          if q = r then resolvedReceipt (clientOf (s.receiptAt r))
            (frame.set (lit "request_id") (.str (clientOf (s.receiptAt r))))
          else s.receiptAt q := fun q => by
        rw [← receiptAt_write (h.held _ r hr).1.1, hres]
        show (if _ then _ else _ : OutcomeStore σ).receiptAt q = _
        split_ifs <;> rfl
      have hout : (s.resolveOutcome session frame).2.2.outcomes = s.outcomes := by
        rw [hres]
        show (if _ then _ else _ : OutcomeStore σ).outcomes = _
        split_ifs <;> rfl
      rw [hout] at hq
      obtain rfl : p = q := Option.some.inj (hid.symm.trans hq)
      rw [hat]
      split_ifs with hpr
      · subst hpr
        have hans := (h.held id p hid).1.2 _ hr
        right
        by_cases hsays : isPending frame = true ∨ isAccepted frame = false
        · exact .inl ⟨hans, hsays⟩
        · rw [not_or, Bool.not_eq_true, Bool.not_eq_false] at hsays
          exact .inr (by simpa using hsays)
      · exact .inl rfl
  | fail session =>
    change ((s.awaiting session).foldl OutcomeStore.failOne s).outcomes.get? id = some q at hq
    rw [(foldl_failOne_frame _ s).1] at hq
    obtain rfl : p = q := Option.some.inj (hid.symm.trans hq)
    by_cases hmem : id ∈ s.awaiting session
    · exact .inr (.inl hmem)
    · refine .inl (receiptAt_foldl_failOne h fun j hj hjp => ?_)
      exact hmem ((h.held id p hid).1.2 j hjp ▸ hj)

/-! ### One session for each request -/

/-- A step that keeps each worker request to the session it belongs to. -/
def OwnedBy (owner : Bytes → σ) : Step σ → Prop
  | .begin session workerRequest _ => owner workerRequest = session
  | .resolve session frame => owner (ReceiptLog.answered frame) = session
  | _ => True

/-- What a session awaits is its own, and pending. -/
structure Owned (owner : Bytes → σ) (s : OutcomeStore σ) : Prop where
  awaited : ∀ session, ∀ id ∈ s.awaiting session, owner id = session
  pending : ∀ session, ∀ id ∈ s.awaiting session, ∀ p, s.outcomes.get? id = some p →
    isPending (s.receiptAt p) = true
  callers : ∀ sender ∈ s.sending, owner sender.workerRequest = sender.session

variable {owner : Bytes → σ}

omit [DecidableEq σ] in
theorem Owned.write (h : Owned owner s) {p : Nat} {id : Bytes} (hp : s.OnlyFor p id) {v : Json}
    (hv : isPending v = true ∨ ∀ session, id ∉ s.awaiting session) : Owned owner (s.write p v) where
  awaited := h.awaited
  pending session j hj q hq := by
    rw [receiptAt_write hp.1]
    split_ifs with hqp
    · subst hqp
      rcases hv with hv | hv
      · exact hv
      · exact absurd (hp.2 j hq ▸ hj) (hv session)
    · exact h.pending session j hj q hq
  callers := h.callers

theorem Owned.stopAwaiting (h : Owned owner s) (session : σ) (id : Bytes) :
    Owned owner (s.stopAwaiting session id) := by
  have hsub : ∀ other, ∀ j ∈ (s.stopAwaiting session id).awaiting other, j ∈ s.awaiting other := by
    intro other j hj
    simp only [OutcomeStore.stopAwaiting, Function.update_apply] at hj
    split_ifs at hj with ho
    · exact ho ▸ List.mem_of_mem_filter hj
    · exact hj
  exact ⟨fun other j hj => h.awaited other j (hsub other j hj),
    fun other j hj => h.pending other j (hsub other j hj), h.callers⟩

/-- Nobody awaits a request its own session has stopped awaiting. -/
theorem Owned.not_awaited (h : Owned owner s) {session : σ} {id : Bytes} (hid : owner id = session)
    (other : σ) : id ∉ (s.stopAwaiting session id).awaiting other := by
  intro hmem
  have hother := (h.stopAwaiting session id).awaited other id hmem
  obtain rfl : other = session := hother.symm.trans hid
  simp [OutcomeStore.stopAwaiting] at hmem

/-- A caller that registered a pending receipt awaits it. -/
theorem Owned.registered (h : Owned owner s) {s' : OutcomeStore σ} {session : σ} {id : Bytes}
    (hid : owner id = session)
    (hawait : s'.awaiting = Function.update s.awaiting session (s.awaiting session ++ [id]))
    (hsend : ∀ sender ∈ s'.sending, sender ∈ s.sending ∨
      (sender.session = session ∧ sender.workerRequest = id))
    (hnew : ∀ q, s'.outcomes.get? id = some q → isPending (s'.receiptAt q) = true)
    (hold : ∀ j q, j ≠ id → s'.outcomes.get? j = some q →
      s.outcomes.get? j = some q ∧ s'.receiptAt q = s.receiptAt q) : Owned owner s' := by
  have hmem : ∀ other, ∀ j ∈ s'.awaiting other, j ∈ s.awaiting other ∨ (other = session ∧ j = id) := by
    intro other j hj
    rw [hawait, Function.update_apply] at hj
    split_ifs at hj with ho
    · exact (List.mem_append.mp hj).imp (ho ▸ ·) fun hj => ⟨ho, List.mem_singleton.mp hj⟩
    · exact .inl hj
  refine ⟨fun other j hj => ?_, fun other j hj q hq => ?_, fun sender hs => ?_⟩
  · rcases hmem other j hj with hj | ⟨rfl, rfl⟩
    · exact h.awaited other j hj
    · exact hid
  · by_cases hjid : j = id
    · exact hnew q (hjid ▸ hq)
    · obtain ⟨hget, hat⟩ := hold j q hjid hq
      rcases hmem other j hj with hj | ⟨-, hj⟩
      · exact hat ▸ h.pending other j hj q hget
      · exact absurd hj hjid
  · rcases hsend sender hs with hs | ⟨hs, hw⟩
    · exact h.callers sender hs
    · rw [hs, hw, hid]

theorem Owned.step (hi : Inv called s) (h : Owned owner s) {e : Step σ} (he : OwnedBy owner e) :
    Owned owner (s.step e) := by
  cases e with
  | begin session id client =>
    show Owned owner (s.begin session id client).2
    rcases s.begin_cases session id client with
      ⟨p, hp, hbegin⟩ | ⟨-, hbegin⟩ | ⟨outcomes, -, hroom, hbegin⟩
    · have honly := (hi.held id p hp).1
      rw [hbegin]
      refine h.registered he rfl ?_ ?_ ?_
      · exact fun sender hs => (List.mem_append.mp hs).imp_right fun hs => by
          rw [List.mem_singleton.mp hs]
          exact ⟨rfl, rfl⟩
      · intro q hq
        obtain rfl : p = q := Option.some.inj (hp.symm.trans hq)
        show isPending ((s.write p _).receiptAt p) = true
        rw [receiptAt_write honly.1, if_pos rfl]
        rfl
      · intro j q hj hq
        refine ⟨hq, ?_⟩
        show (s.write p _).receiptAt q = _
        rw [receiptAt_write honly.1, if_neg]
        rintro rfl
        exact hj (honly.2 j hq)
    · rw [hbegin]
      exact h
    · have hlen : s.heap.length < (s.admitRequest outcomes id).heap.length := by simp [admitRequest]
      rw [hbegin]
      refine h.registered he rfl ?_ ?_ ?_
      · exact fun sender hs => (List.mem_append.mp hs).imp_right fun hs => by
          rw [List.mem_singleton.mp hs]
          exact ⟨rfl, rfl⟩
      · intro q hq
        change (outcomes.push id s.heap.length).get? id = some q at hq
        rw [BoundedStore.get?_push, if_pos rfl] at hq
        obtain rfl := Option.some.inj hq
        show isPending (((s.admitRequest outcomes id).write _ _).receiptAt _) = true
        rw [receiptAt_write hlen, if_pos rfl]
        rfl
      · intro j q hj hq
        change (outcomes.push id s.heap.length).get? j = some q at hq
        rw [BoundedStore.get?_push, if_neg hj] at hq
        have hget := BoundedStore.get?_of_makeRoom hroom hq
        refine ⟨hget, ?_⟩
        show ((s.admitRequest outcomes id).write _ _).receiptAt q = _
        rw [receiptAt_write hlen, if_neg (hi.held j q hget).1.1.ne, receiptAt_admitRequest]
  | sent i ok =>
    have hleave : Owned owner { s with sending := s.sending.eraseIdx i } :=
      ⟨h.awaited, h.pending, fun sender hs => h.callers sender (List.mem_of_mem_eraseIdx hs)⟩
    show Owned owner (s.sent i ok)
    rcases s.sent_cases i ok with hsent | ⟨sender, hi', ⟨-, hsent⟩ | ⟨-, hsent⟩⟩
    · rw [hsent]
      exact h
    · rw [hsent]
      exact hleave
    · have hs := List.mem_of_getElem? hi'
      rw [hsent]
      exact (hleave.stopAwaiting _ _).write (hi.callers sender hs).1
        (.inr (hleave.not_awaited (h.callers sender hs)))
  | resolve session frame =>
    show Owned owner (s.resolveOutcome session frame).2.2
    rcases s.resolveOutcome_cases session frame with ⟨-, hres⟩ | ⟨p, hp, hres⟩
    · rw [hres]
      exact h
    · have honly := (hi.held _ p hp).1
      rw [hres]
      show Owned owner (if _ then _ else _)
      split_ifs with hpending
      · exact h.write honly (.inl (by simpa using hpending))
      · exact (h.stopAwaiting session (ReceiptLog.answered frame)).write honly
          (.inr (h.not_awaited he))
  | fail session =>
    obtain ⟨hout, hawait, hsend⟩ := foldl_failOne_frame (s.awaiting session) s
    have hmem : ∀ other, ∀ j ∈ (s.failPending session).awaiting other,
        other ≠ session ∧ j ∈ s.awaiting other := by
      intro other j hj
      simp only [failPending, hawait, Function.update_apply] at hj
      split_ifs at hj with ho
      · cases hj
      · exact ⟨ho, hj⟩
    refine ⟨fun other j hj => h.awaited other j (hmem other j hj).2, ?_, fun sender hs => ?_⟩
    · intro other j hj q hq
      obtain ⟨hne, hj⟩ := hmem other j hj
      change ((s.awaiting session).foldl OutcomeStore.failOne s).outcomes.get? j = some q at hq
      rw [hout] at hq
      show isPending (((s.awaiting session).foldl OutcomeStore.failOne s).receiptAt q) = true
      rw [receiptAt_foldl_failOne hi]
      · exact h.pending other j hj q hq
      · intro id hid hidq
        obtain rfl := (hi.held j q hq).1.2 id hidq
        exact hne ((h.awaited other id hj).symm.trans (h.awaited session id hid))
    · change sender ∈ ((s.awaiting session).foldl OutcomeStore.failOne s).sending at hs
      rw [hsend] at hs
      exact h.callers sender hs

/-! ### Every interleaving -/

/-- What the steps so far leave in every interleaving. -/
structure OutcomesSound (steps : List (Step σ)) (s : OutcomeStore σ) : Prop where
  /-- order and map hold the same ids, each once -/
  sameIds : s.outcomes.order.Perm (s.outcomes.entries.map Prod.fst)
  nodup : s.outcomes.order.Nodup
  atMost : s.outcomes.order.length ≤ 512
  pendingKept : ∀ id p e, s.outcomes.get? id = some p → isPending (s.receiptAt p) = true →
    (s.step e).outcomes.get? id = some p
  /-- a final outcome gives way to a pending or failed one only in four ways -/
  settled : ∀ id p q e, s.outcomes.get? id = some p → isPending (s.receiptAt p) = false →
    (s.step e).outcomes.get? id = some q → (s.step e).receiptAt q ≠ s.receiptAt p →
    (isPending ((s.step e).receiptAt q) = true ∨ isAccepted ((s.step e).receiptAt q) = false) →
    Unsettles s id e
  /-- and a session that is gone is not one of them while each request keeps
  to one session -/
  oneSession : ∀ owner : Bytes → σ, (∀ e ∈ steps, OwnedBy owner e) →
    ∀ session, ∀ id ∈ s.awaiting session, ∀ p, s.outcomes.get? id = some p →
      isPending (s.receiptAt p) = true
  failed : ∀ session, (s.failPending session).awaiting session = [] ∧
    ∀ id ∈ s.awaiting session, ∀ p, (s.failPending session).outcomes.get? id = some p →
      isPending ((s.failPending session).receiptAt p) = false
  relabelled : ∀ session frame, (s.resolveOutcome session frame).1 = true →
    ∃ sender client, Step.begin sender (ReceiptLog.answered frame) client ∈ steps ∧
      (s.resolveOutcome session frame).2.1 = frame.set (lit "request_id") (.str client)

/-- A request of some step. -/
def CalledIn (steps : List (Step σ)) (id client : Bytes) : Prop :=
  ∃ session, Step.begin session id client ∈ steps

theorem inv_foldl (steps : List (Step σ)) :
    Inv (CalledIn steps) (steps.foldl OutcomeStore.step ({} : OutcomeStore σ)) := by
  have hok : ∀ e ∈ steps, ∀ _ : OutcomeStore σ, IsCall (CalledIn steps) e := by
    intro e he _
    cases e with
    | begin session id client => exact ⟨session, he⟩
    | _ => trivial
  exact Run.invariant .empty (fun s e h he => h.step he)
    (Run.of_allOk (Run.allOk_of_forall hok _))

theorem owned_foldl {steps : List (Step σ)} (howned : ∀ e ∈ steps, OwnedBy owner e) :
    Owned owner (steps.foldl OutcomeStore.step ({} : OutcomeStore σ)) := by
  have hrun : Run OutcomeStore.step (fun _ e => OwnedBy owner e) {}
      (steps.foldl OutcomeStore.step ({} : OutcomeStore σ)) :=
    Run.of_allOk (Run.allOk_of_forall (fun e he _ => howned e he) _)
  have hstart : Owned owner ({} : OutcomeStore σ) :=
    ⟨fun _ _ h => (List.not_mem_nil h).elim, fun _ _ h => (List.not_mem_nil h).elim,
      fun _ h => (List.not_mem_nil h).elim⟩
  refine (Run.invariant (I := fun s => Inv (fun _ _ => True) s ∧ Owned owner s) ⟨.empty, hstart⟩
    (fun s e h he => ⟨h.1.step ?_, h.2.step h.1 he⟩) hrun).2
  cases e <;> trivial

/-- **The outcomes stay sound in every interleaving.** -/
theorem outcomes_sound (steps : List (Step σ)) : OutcomesSound steps (steps.foldl step {}) := by
  have hinv := inv_foldl steps
  have howned : ∀ owner : Bytes → σ, (∀ e ∈ steps, OwnedBy owner e) →
      Owned owner (steps.foldl OutcomeStore.step {}) := fun owner => owned_foldl
  generalize hs : steps.foldl OutcomeStore.step ({} : OutcomeStore σ) = s at hinv howned
  refine ⟨hinv.sound.perm, hinv.sound.nodup, hinv.sound.length_le, ?_, ?_, ?_, ?_, ?_⟩
  · exact fun id p e hid hpending => get?_step_of_pending hid hpending e
  · intro id p q e hid hfinal hq hne hsays
    rcases receiptAt_step hinv hid hq with heq | hun | ⟨hnot, hacc⟩
    · exact absurd heq hne
    · exact hun
    · rcases hsays with hp | ha
      · rw [hnot] at hp
        exact absurd hp Bool.false_ne_true
      · rw [hacc] at ha
        exact absurd ha.symm Bool.false_ne_true
  · exact fun owner hall => (howned owner hall).pending
  · intro session
    refine ⟨Function.update_self .., fun id hid p hp => ?_⟩
    change ((s.awaiting session).foldl OutcomeStore.failOne s).outcomes.get? id = some p at hp
    rw [(foldl_failOne_frame _ s).1] at hp
    exact isPending_foldl_failOne_of_mem hinv hid hp
  · intro session frame hknown
    rcases s.resolveOutcome_cases session frame with ⟨-, hres⟩ | ⟨p, hp, hres⟩
    · rw [hres] at hknown
      exact absurd hknown Bool.false_ne_true
    · obtain ⟨sender, hsender⟩ := (hinv.held _ p hp).2
      exact ⟨sender, _, hsender, by rw [hres]⟩

/-- A final outcome is made pending when its request is sent again. -/
theorem final_outcome_sent_again :
    let frame := Json.obj [(lit "accepted", .bool true), (lit "request_id", .str (lit "r"))]
    let s := ([.begin () (lit "r") (lit "c"), .sent 0 true, .resolve () frame] :
      List (Step Unit)).foldl step {}
    let s' := s.step (.begin () (lit "r") (lit "c"))
    (s.outcomes.get? (lit "r")).map (fun p => isPending (s.receiptAt p)) = some false ∧
      (s'.outcomes.get? (lit "r")).map (fun p => isPending (s'.receiptAt p)) = some true := by
  decide

end OutcomeStore

end UAgent
