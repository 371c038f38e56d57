/-
UAgent/App/BatcherRuns.lean

What the clients of a worker are told (`TransientBatcher`,
src/app/transient_batcher.cc) against what was pushed: the text of every reply
is the same, every other event keeps its place after all that came before it,
and a batch carries the offset of its first byte.  Main result: `run_faithful`.
-/
import UAgent.App.TransientBatcher
import UAgent.Base.Batches
import UAgent.Base.Run

namespace UAgent

open Bytes

/-! ### What a list of events says -/

namespace AppEvent

/-- The text of a reply once an event has been read. -/
def addText (type id : Bytes) (text : Bytes) (e : AppEvent) : Bytes :=
  if e.IsDelta ∧ e.type = type ∧ e.responseId = id then
    if e.reset then e.text else text ++ e.text
  else text

/-- The streamed text of a reply, started again at each reset. -/
def streamText (type id : Bytes) (events : List AppEvent) : Bytes :=
  events.foldl (addText type id) []

def lastUsage (events : List AppEvent) : Option AppEvent :=
  (events.filter (·.IsUsage)).getLast?

variable {e d : AppEvent} {events : List AppEvent} {type id : Bytes}

/-- Only deltas say anything. -/
theorem streamText_filter (events : List AppEvent) :
    streamText type id (events.filter (·.IsDelta)) = streamText type id events := by
  suffices h : ∀ text, (events.filter (·.IsDelta)).foldl (addText type id) text =
      events.foldl (addText type id) text from h []
  induction events with
  | nil => exact fun _ => rfl
  | cons e events ih =>
    intro text
    by_cases he : e.IsDelta
    · rw [List.filter_cons_of_pos (by simpa using he), List.foldl_cons, List.foldl_cons, ih]
    · rw [List.filter_cons_of_neg (by simpa using he), ih, List.foldl_cons, addText,
        if_neg fun h => he h.1]

theorem lastUsage_append_usage (h : e.IsUsage) (events : List AppEvent) :
    lastUsage (events ++ [e]) = some e := by
  rw [lastUsage, List.filter_append, List.filter_cons_of_pos (by simpa using h)]
  simp

theorem lastUsage_append_not (h : ¬e.IsUsage) (events later : List AppEvent) :
    lastUsage (events ++ e :: later) = lastUsage (events ++ later) := by
  rw [lastUsage, lastUsage, List.filter_append, List.filter_append,
    List.filter_cons_of_neg (by simpa using h)]

theorem IsDelta.not_usage (h : e.IsDelta) : ¬e.IsUsage := by
  intro hu
  rw [IsUsage] at hu
  rw [IsDelta, hu] at h
  revert h
  decide

theorem IsUsage.not_delta (h : e.IsUsage) : ¬e.IsDelta := fun hd => hd.not_usage h

theorem IsDelta.not_other (h : e.IsDelta) : ¬e.IsOther := fun ho => ho.1 h

theorem IsUsage.not_other (h : e.IsUsage) : ¬e.IsOther := fun ho => ho.2.1 h

/-- Deltas of one key are of one reply. -/
theorem IsDelta.of_deltaKey (he : e.IsDelta) (hd : d.IsDelta) (h : e.deltaKey = d.deltaKey) :
    e.type = d.type ∧ e.responseId = d.responseId := by
  have hline : ∀ {e : AppEvent}, e.IsDelta → (0x0a : UInt8) ∉ e.type := by
    intro e he
    rcases he with htype | htype <;> rw [htype] <;> decide
  have hkey : ∀ {e : AppEvent}, e.IsDelta → untilFirst 0x0a e.deltaKey = e.type := by
    intro e he
    rw [deltaKey, List.append_assoc, show lit "\n" = [0x0a] by decide, List.singleton_append,
      untilFirst_append_cons (hline he)]
  have htype : e.type = d.type := by rw [← hkey he, h, hkey hd]
  rw [deltaKey, deltaKey, htype] at h
  exact ⟨htype, List.append_cancel_left h⟩

end AppEvent

/-! ### Batches of deltas -/

open AppEvent

/-- Deltas of one reply, of which only the first may be a reset, and the delta
sent for them. -/
structure Batch (group : List AppEvent) (e : AppEvent) : Prop where
  delta : e.IsDelta
  first : ∃ first rest, group = first :: rest ∧ e.reset = first.reset ∧
    e.data.get? (lit "offset") = first.data.get? (lit "offset") ∧ ∀ d ∈ rest, d.reset = false
  reply : ∀ d ∈ group, d.IsDelta ∧ d.type = e.type ∧ d.responseId = e.responseId
  text : e.text = (group.map AppEvent.text).flatten

namespace Batch

variable {group : List AppEvent} {e d : AppEvent} {type id : Bytes}

theorem ne_nil (h : Batch group e) : group ≠ [] := by
  obtain ⟨first, rest, rfl, -⟩ := h.first
  exact List.cons_ne_nil first rest

theorem single (h : e.IsDelta) : Batch [e] e where
  delta := h
  first := ⟨e, [], rfl, rfl, rfl, fun _ hmem => absurd hmem List.not_mem_nil⟩
  reply d hd := by
    rw [List.mem_singleton.mp hd]
    exact ⟨h, rfl, rfl⟩
  text := by simp

/-- Texts added one after another. -/
theorem foldl_addText {rest : List AppEvent} (hrest : ∀ d ∈ rest, d.reset = false)
    (hreply : ∀ d ∈ rest, d.IsDelta ∧ d.type = type ∧ d.responseId = id) (text : Bytes) :
    rest.foldl (addText type id) text = text ++ (rest.map AppEvent.text).flatten := by
  induction rest generalizing text with
  | nil => simp
  | cons d rest ih =>
    have hadd : addText type id text d = text ++ d.text := by
      rw [addText, if_pos (hreply d List.mem_cons_self), hrest d List.mem_cons_self]
      rfl
    rw [List.foldl_cons, hadd, ih (fun d' h => hrest d' (List.mem_cons_of_mem d h))
      fun d' h => hreply d' (List.mem_cons_of_mem d h)]
    simp

/-- A batch says what its deltas say. -/
theorem foldl_eq (h : Batch group e) (text : Bytes) :
    group.foldl (addText type id) text = addText type id text e := by
  obtain ⟨first, rest, rfl, hreset, -, hrest⟩ := h.first
  by_cases hsame : e.type = type ∧ e.responseId = id
  · obtain ⟨rfl, rfl⟩ := hsame
    have htext : e.text = first.text ++ (rest.map AppEvent.text).flatten := h.text
    have hfirst : addText e.type e.responseId text first =
        if first.reset then first.text else text ++ first.text :=
      if_pos (h.reply first List.mem_cons_self)
    have he : addText e.type e.responseId text e =
        if first.reset then e.text else text ++ e.text := by
      rw [← hreset]
      exact if_pos ⟨h.delta, rfl, rfl⟩
    rw [List.foldl_cons, foldl_addText hrest fun d hd => h.reply d (List.mem_cons_of_mem first hd),
      hfirst, he, htext]
    by_cases hr : first.reset
    · rw [if_pos hr, if_pos hr]
    · rw [if_neg hr, if_neg hr, List.append_assoc]
  · have hidle : ∀ d ∈ first :: rest, ∀ text, addText type id text d = text := by
      intro d hd text
      obtain ⟨-, htype, hid⟩ := h.reply d hd
      exact if_neg fun hof => hsame ⟨htype ▸ hof.2.1, hid ▸ hof.2.2⟩
    have hfold : ∀ l : List AppEvent, (∀ d ∈ l, ∀ text, addText type id text d = text) →
        l.foldl (addText type id) text = text := by
      intro l
      induction l with
      | nil => exact fun _ => rfl
      | cons d l ih =>
        intro hl
        rw [List.foldl_cons, hl d List.mem_cons_self]
        exact ih fun d' hd' => hl d' (List.mem_cons_of_mem d hd')
    rw [hfold _ hidle, addText, if_neg fun hof => hsame hof.2]

end Batch

namespace AppEvent

variable {held e : AppEvent}

/-- A delta that joins another changes its text and its preview mark only. -/
theorem get?_append {key : Bytes} (htext : key ≠ lit "text")
    (hpreview : key ≠ lit "preview_truncated") :
    (held.append e).data.get? key = held.data.get? key := by
  show Json.get? (if _ then _ else _) key = _
  split_ifs
  · rw [Json.get?_set_ne _ _ hpreview, Json.get?_set_ne _ _ htext]
  · rw [Json.get?_set_ne _ _ htext]

theorem responseId_append : (held.append e).responseId = held.responseId := by
  rw [responseId, jsonValueStr, get?_append (by decide) (by decide)]
  rfl

theorem reset_append : (held.append e).reset = held.reset := by
  rw [reset, jsonValueBool, get?_append (by decide) (by decide)]
  rfl

/-- What a member is written into is an object from then on. -/
theorem isObject_set {data : Json} (h : data.isObject ∨ data = .null) (key : Bytes) (v : Json) :
    (data.set key v).isObject := by
  rcases h with h | rfl
  · exact Json.isObject_set h key v
  · rfl

theorem isObject_append (h : held.data.isObject ∨ held.data = .null) :
    (held.append e).data.isObject := by
  show Json.isObject (if _ then _ else _)
  split_ifs
  · exact Json.isObject_set (isObject_set h _ _) _ _
  · exact isObject_set h _ _

theorem text_append (h : held.data.isObject ∨ held.data = .null) :
    (held.append e).text = held.text ++ e.text := by
  have hset : ∀ v, (held.data.set (lit "text") v).get? (lit "text") = some v := by
    intro v
    rcases h with h | h
    · rw [Json.get?_set h, if_pos rfl]
    · rw [h]
      rfl
  have hget : (held.append e).data.get? (lit "text") = some (.str (held.text ++ e.text)) := by
    show Json.get? (if _ then _ else _) _ = _
    split_ifs
    · rw [Json.get?_set_ne _ _ (by decide), hset]
    · rw [hset]
  rw [text, jsonStringRef, hget]
  rfl

end AppEvent

/-- A delta of the same reply joins a batch. -/
theorem Batch.append {group : List AppEvent} {held e : AppEvent} (h : Batch group held)
    (hdata : held.data.isObject ∨ held.data = .null) (he : e.IsDelta) (hreset : e.reset = false)
    (hkey : held.deltaKey = e.deltaKey) : Batch (group ++ [e]) (held.append e) := by
  obtain ⟨htype, hid⟩ := h.delta.of_deltaKey he hkey
  constructor
  case delta => exact h.delta
  case first =>
    obtain ⟨first, rest, rfl, hfirst, hoffset, hrest⟩ := h.first
    refine ⟨first, rest ++ [e], rfl, reset_append.trans hfirst, ?_, ?_⟩
    · rw [get?_append (by decide) (by decide), hoffset]
    · intro d hd
      rcases List.mem_append.mp hd with hd | hd
      · exact hrest d hd
      · rw [List.mem_singleton.mp hd, hreset]
  case reply =>
    intro d hd
    rw [responseId_append]
    rcases List.mem_append.mp hd with hd | hd
    · exact h.reply d hd
    · rw [List.mem_singleton.mp hd]
      exact ⟨he, htype.symm, hid.symm⟩
  case text =>
    rw [text_append hdata, h.text]
    simp

/-! ### What every run keeps -/

/-- What was delivered says all that was pushed. -/
structure Caught (pushed delivered : List AppEvent) : Prop where
  deltas : Batched Batch (pushed.filter (·.IsDelta)) (delivered.filter (·.IsDelta))
  usage : lastUsage delivered = lastUsage pushed
  others : delivered.filter (·.IsOther) = pushed.filter (·.IsOther)

/-- What was delivered and what is held say all that was pushed, and every
other event was delivered after all that was pushed before it. -/
structure Faithful (r : BatcherRun) : Prop where
  deltas : Batched Batch (r.pushed.filter (·.IsDelta))
    (r.delivered.filter (·.IsDelta) ++ r.batcher.pendingDelta.toList)
  usage : (r.delivered.filter (·.IsUsage) ++ r.batcher.pendingUsage.toList).getLast? =
    lastUsage r.pushed
  others : r.delivered.filter (·.IsOther) = r.pushed.filter (·.IsOther)
  order : ∀ before e after, r.pushed = before ++ e :: after → e.IsOther →
    ∃ before' after', r.delivered = before' ++ e :: after' ∧ Caught before before'
  delta : ∀ e ∈ r.batcher.pendingDelta, e.IsDelta ∧ (e.data.isObject ∨ e.data = .null)
  held : ∀ e ∈ r.batcher.pendingUsage, e.IsUsage
  idle : r.batcher.sentUsage = false → r.batcher.pendingUsage = none

namespace BatcherRun

/-- An event is pushed. -/
def take (r : BatcherRun) (e : AppEvent) (out : TransientBatcher × List AppEvent) : BatcherRun :=
  { r.deliver out with pushed := r.pushed ++ [e] }

variable (r : BatcherRun) (e : AppEvent) (out : TransientBatcher × List AppEvent)

@[simp] theorem deliver_batcher : (r.deliver out).batcher = out.1 := rfl

@[simp] theorem take_batcher : (r.take e out).batcher = out.1 := rfl

@[simp] theorem take_pushed : (r.take e out).pushed = r.pushed ++ [e] := rfl

@[simp] theorem take_delivered : (r.take e out).delivered = r.delivered ++ out.2 := rfl

theorem deliver_append (first later : TransientBatcher × List AppEvent) :
    r.deliver (later.1, first.2 ++ later.2) = (r.deliver first).deliver later := by
  show BatcherRun.mk _ _ _ = _
  rw [← List.append_assoc]
  rfl

theorem take_append (first later : TransientBatcher × List AppEvent) :
    r.take e (later.1, first.2 ++ later.2) = (r.deliver first).take e later := by
  rw [take, deliver_append r first]
  rfl

theorem take_deliver (b : TransientBatcher) :
    r.take e out = (r.take e (b, [])).deliver out := by
  show BatcherRun.mk _ _ _ = BatcherRun.mk _ _ _
  rw [take_delivered, List.append_nil]
  rfl

end BatcherRun

namespace TransientBatcher

theorem flushLocked_pendingDelta (b : TransientBatcher) (sent : Int) :
    (b.flushLocked sent).1.pendingDelta = none := by
  show (b.flushDelta.1.flushUsage sent).1.pendingDelta = none
  rw [flushUsage]
  split <;> rfl

theorem flushLocked_pendingUsage (b : TransientBatcher) (sent : Int) :
    (b.flushLocked sent).1.pendingUsage = none := by
  show (b.flushDelta.1.flushUsage sent).1.pendingUsage = none
  rw [flushUsage]
  split
  case h_1 hnone => exact hnone
  case h_2 => rfl

theorem queueDelta_of_first {b : TransientBatcher} {e : AppEvent}
    (h : e.reset ∨ e.deltaKey ∉ b.sentDeltaKeys) (now sent : Int) :
    ∃ keys, b.queueDelta now sent e =
      (({ b with sentDeltaKeys := keys }.flushLocked sent).1,
        ({ b with sentDeltaKeys := keys }.flushLocked sent).2 ++ [e]) := by
  rw [queueDelta, if_pos h]
  exact ⟨_, rfl⟩

theorem queueDelta_of_held {b : TransientBatcher} {e : AppEvent}
    (h : ¬(e.reset ∨ e.deltaKey ∉ b.sentDeltaKeys)) (now sent : Int) :
    ∃ first, (first = b.flushDelta ∨ first = (b, []) ∧
        ∀ held ∈ b.pendingDelta, held.deltaKey = e.deltaKey) ∧
      b.queueDelta now sent e =
        ((first.1.holdDelta now e).1, first.2 ++ (first.1.holdDelta now e).2) := by
  rw [queueDelta, if_neg h]
  refine ⟨_, ?_, rfl⟩
  by_cases hother : b.pendingDelta.any fun held => held.deltaKey ≠ e.deltaKey
  · exact .inl (if_pos hother)
  · refine .inr ⟨if_neg hother, fun held hheld => ?_⟩
    rw [hheld] at hother
    simpa using hother

/-- A delta is held, and what is held then may go. -/
theorem holdDelta_eq (b : TransientBatcher) (now : Int) (e : AppEvent) :
    ∃ started, b.holdDelta now e = { b with
        pendingDelta := some ((b.pendingDelta.map (AppEvent.append · e)).getD e)
        deltaStarted := started }.flushDelta ∨
      b.holdDelta now e = ({ b with
        pendingDelta := some ((b.pendingDelta.map (AppEvent.append · e)).getD e)
        deltaStarted := started }, []) := by
  cases hpending : b.pendingDelta with
  | none =>
    refine ⟨now, ?_⟩
    rw [holdDelta, hpending]
    exact ite_eq_or_eq _ _ _
  | some held =>
    refine ⟨b.deltaStarted, ?_⟩
    rw [holdDelta, hpending]
    exact ite_eq_or_eq _ _ _

/-- The flush thread sends the held delta or not, and then the usage or not. -/
theorem wake_eq (b : TransientBatcher) (now sent : Int) :
    ∃ first later : TransientBatcher × List AppEvent,
      (first = b.flushDelta ∨ first = (b, [])) ∧
      (later = first.1.flushUsage sent ∨ later = (first.1, [])) ∧
      b.wake now sent = (later.1, first.2 ++ later.2) := by
  by_cases hstop : b.stop
  · exact ⟨(b, []), (b, []), .inr rfl, .inr rfl, if_pos hstop⟩
  · exact ⟨_, _, ite_eq_or_eq _ _ _, ite_eq_or_eq _ _ _, if_neg hstop⟩

end TransientBatcher

namespace Faithful

variable {r : BatcherRun} {e : AppEvent} {b : TransientBatcher}

theorem start : Faithful {} where
  deltas := .nil
  usage := rfl
  others := rfl
  order before e after heq := absurd heq.symm (by simp)
  delta e he := nomatch he
  held e he := nomatch he
  idle _ := rfl

/-- With nothing held all was delivered. -/
theorem caught (h : Faithful r) (hdelta : r.batcher.pendingDelta = none)
    (husage : r.batcher.pendingUsage = none) : Caught r.pushed r.delivered where
  deltas := by simpa [hdelta] using h.deltas
  usage := by
    rw [← h.usage, husage, Option.toList_none, List.append_nil, lastUsage]
  others := h.others

/-- Only what is held and whether usage was sent matter. -/
theorem of_batcher (h : Faithful r) (hdelta : b.pendingDelta = r.batcher.pendingDelta)
    (husage : b.pendingUsage = r.batcher.pendingUsage)
    (hidle : b.sentUsage = false → b.pendingUsage = none) : Faithful { r with batcher := b } where
  deltas := hdelta.symm ▸ h.deltas
  usage := husage.symm ▸ h.usage
  others := h.others
  order := h.order
  delta := hdelta.symm ▸ h.delta
  held := husage.symm ▸ h.held
  idle := hidle

/-- What is delivered later leaves the order as it is. -/
theorem order_append (h : Faithful r) (out : List AppEvent) :
    ∀ before e after, r.pushed = before ++ e :: after → e.IsOther →
      ∃ before' after', r.delivered ++ out = before' ++ e :: after' ∧
        Caught before before' := by
  intro before e after heq he
  obtain ⟨before', after', hdelivered, hcaught⟩ := h.order before e after heq he
  refine ⟨before', after' ++ out, ?_, hcaught⟩
  rw [hdelivered, List.append_assoc, List.cons_append]

theorem deliver_nil (h : Faithful r) : Faithful (r.deliver (r.batcher, [])) := by
  have hsame : r.deliver (r.batcher, []) = r := by simp [BatcherRun.deliver]
  exact hsame.symm ▸ h

theorem flushDelta (h : Faithful r) : Faithful (r.deliver r.batcher.flushDelta) := by
  cases hpending : r.batcher.pendingDelta with
  | none =>
    have hsame : r.deliver r.batcher.flushDelta =
        { r with batcher := { r.batcher with pendingDelta := none } } := by
      simp [BatcherRun.deliver, TransientBatcher.flushDelta, hpending]
    rw [hsame]
    exact h.of_batcher hpending.symm rfl h.idle
  | some d =>
    obtain ⟨hd, -⟩ := h.delta d hpending
    have hout : r.deliver r.batcher.flushDelta =
        { r with
          batcher := { r.batcher with pendingDelta := none }
          delivered := r.delivered ++ [d] } := by
      simp [BatcherRun.deliver, TransientBatcher.flushDelta, hpending]
    rw [hout]
    constructor
    case deltas => simpa [hd, hpending] using h.deltas
    case usage => simpa [hd.not_usage] using h.usage
    case others => simpa [hd.not_other] using h.others
    case order => exact h.order_append [d]
    case delta => exact fun e he => nomatch he
    case held => exact h.held
    case idle => exact h.idle

theorem flushUsage (h : Faithful r) (sent : Int) :
    Faithful (r.deliver (r.batcher.flushUsage sent)) := by
  cases hpending : r.batcher.pendingUsage with
  | none =>
    have hsame : r.deliver (r.batcher.flushUsage sent) = r := by
      simp [BatcherRun.deliver, TransientBatcher.flushUsage, hpending]
    exact hsame.symm ▸ h
  | some u =>
    have hu := h.held u hpending
    have hout : r.deliver (r.batcher.flushUsage sent) =
        { r with
          batcher := { r.batcher with pendingUsage := none, usageSent := sent }
          delivered := r.delivered ++ [u] } := by
      simp [BatcherRun.deliver, TransientBatcher.flushUsage, hpending]
    rw [hout]
    constructor
    case deltas => simpa [hu.not_delta] using h.deltas
    case usage => simpa [hu, hpending] using h.usage
    case others => simpa [hu.not_other] using h.others
    case order => exact h.order_append [u]
    case delta => exact h.delta
    case held => exact fun e he => nomatch he
    case idle => exact fun _ => rfl

theorem flushLocked (h : Faithful r) (sent : Int) :
    Faithful (r.deliver (r.batcher.flushLocked sent)) := by
  have hboth := BatcherRun.deliver_append r r.batcher.flushDelta
    (r.batcher.flushDelta.1.flushUsage sent)
  exact hboth ▸ h.flushDelta.flushUsage sent

/-- An event goes at once when nothing is held that it must not overtake. -/
theorem pass (h : Faithful r)
    (hdelta : e.IsDelta ∨ e.IsOther → r.batcher.pendingDelta = none)
    (husage : e.IsUsage ∨ e.IsOther → r.batcher.pendingUsage = none) :
    Faithful (r.take e (r.batcher, [e])) := by
  constructor
  case deltas =>
    rw [BatcherRun.take_pushed, BatcherRun.take_delivered, BatcherRun.take_batcher]
    by_cases he : e.IsDelta
    · have hbatched := h.deltas
      rw [hdelta (.inl he)] at hbatched ⊢
      simpa [he] using hbatched.single (.single he)
    · simpa [he] using h.deltas
  case usage =>
    rw [BatcherRun.take_pushed, BatcherRun.take_delivered, BatcherRun.take_batcher]
    by_cases he : e.IsUsage
    · rw [husage (.inl he), lastUsage_append_usage he]
      simp [he]
    · rw [lastUsage_append_not he, List.append_nil, ← h.usage]
      simp [he]
  case others =>
    show (r.delivered ++ [e]).filter _ = (r.pushed ++ [e]).filter _
    rw [List.filter_append, List.filter_append, h.others]
  case order =>
    intro before o after heq ho
    rcases List.eq_nil_or_concat after with rfl | ⟨after, last, rfl⟩
    · obtain ⟨rfl, hlast⟩ := List.append_inj' heq rfl
      obtain rfl : e = o := (List.cons.inj hlast).1
      exact ⟨r.delivered, [], rfl, h.caught (hdelta (.inr ho)) (husage (.inr ho))⟩
    · refine h.order_append [e] before o after ?_ ho
      rw [List.concat_eq_append, ← List.cons_append, ← List.append_assoc] at heq
      exact (List.append_inj' heq rfl).1
  case delta => exact h.delta
  case held => exact h.held
  case idle => exact h.idle

/-- A pushed event that is no other is in no order. -/
theorem order_push (h : Faithful r) (he : ¬e.IsOther) :
    ∀ before o after, r.pushed ++ [e] = before ++ o :: after → o.IsOther →
      ∃ before' after', r.delivered = before' ++ o :: after' ∧ Caught before before' := by
  intro before o after heq ho
  rcases List.eq_nil_or_concat after with rfl | ⟨after, last, rfl⟩
  · obtain ⟨-, hlast⟩ := List.append_inj' heq rfl
    exact absurd ((List.cons.inj hlast).1 ▸ ho) he
  · refine h.order before o after ?_ ho
    rw [List.concat_eq_append, ← List.cons_append, ← List.append_assoc] at heq
    exact (List.append_inj' heq rfl).1

/-- A delta is held, of its own or at the end of the one held. -/
theorem hold (h : Faithful r) (he : e.IsDelta) (hdata : e.data.isObject ∨ e.data = .null)
    (hreset : e.reset = false)
    (hkey : ∀ held ∈ r.batcher.pendingDelta, held.deltaKey = e.deltaKey) (started : Int) :
    Faithful (r.take e ({ r.batcher with
      pendingDelta := some ((r.batcher.pendingDelta.map (AppEvent.append · e)).getD e)
      deltaStarted := started }, [])) := by
  constructor
  case deltas =>
    rw [BatcherRun.take_pushed, BatcherRun.take_delivered, BatcherRun.take_batcher]
    have hbatched := h.deltas
    cases hpending : r.batcher.pendingDelta with
    | none =>
      rw [hpending] at hbatched
      simpa [he] using hbatched.single (.single he)
    | some d =>
      rw [hpending] at hbatched
      have hextend := hbatched.extend fun group hgroup =>
        hgroup.append (h.delta d hpending).2 he hreset (hkey d hpending)
      simpa [he] using hextend
  case usage =>
    rw [BatcherRun.take_pushed, BatcherRun.take_delivered, BatcherRun.take_batcher]
    rw [lastUsage_append_not he.not_usage, List.append_nil, List.append_nil, ← h.usage]
  case others =>
    show (r.delivered ++ []).filter _ = (r.pushed ++ [e]).filter _
    simpa [he.not_other] using h.others
  case order =>
    rw [BatcherRun.take_pushed, BatcherRun.take_delivered, List.append_nil]
    exact h.order_push he.not_other
  case delta =>
    intro d hd
    obtain rfl := Option.mem_some_iff.mp hd
    cases hpending : r.batcher.pendingDelta with
    | none => exact ⟨he, hdata⟩
    | some held =>
      obtain ⟨hheld, hobject⟩ := h.delta held hpending
      exact ⟨hheld, .inl (isObject_append hobject)⟩
  case held => exact h.held
  case idle => exact h.idle

/-- Usage is held in place of what was held of it. -/
theorem holdUsage (h : Faithful r) (he : e.IsUsage) (hsent : r.batcher.sentUsage = true) :
    Faithful (r.take e ({ r.batcher with pendingUsage := some e }, [])) := by
  constructor
  case deltas =>
    rw [BatcherRun.take_pushed, BatcherRun.take_delivered, BatcherRun.take_batcher]
    simpa [he.not_delta] using h.deltas
  case usage =>
    rw [BatcherRun.take_pushed, BatcherRun.take_delivered, BatcherRun.take_batcher]
    rw [lastUsage_append_usage he]
    simp
  case others =>
    show (r.delivered ++ []).filter _ = (r.pushed ++ [e]).filter _
    simpa [he.not_other] using h.others
  case order =>
    rw [BatcherRun.take_pushed, BatcherRun.take_delivered, List.append_nil]
    exact h.order_push he.not_other
  case delta => exact h.delta
  case held =>
    intro u hu
    exact Option.mem_some_iff.mp hu ▸ he
  case idle => exact fun hnot => Bool.noConfusion (hsent.symm.trans hnot)

/-! ### Every step keeps it -/

theorem holdDelta (h : Faithful r) (he : e.IsDelta) (hdata : e.data.isObject ∨ e.data = .null)
    (hreset : e.reset = false)
    (hkey : ∀ held ∈ r.batcher.pendingDelta, held.deltaKey = e.deltaKey) (now : Int) :
    Faithful (r.take e (r.batcher.holdDelta now e)) := by
  obtain ⟨started, hout⟩ := TransientBatcher.holdDelta_eq r.batcher now e
  have hheld := h.hold he hdata hreset hkey started
  rcases hout with hout | hout
  · rw [hout, BatcherRun.take_deliver]
    exact hheld.flushDelta
  · exact hout.symm ▸ hheld

theorem queueDelta (h : Faithful r) (he : e.IsDelta) (hdata : e.data.isObject ∨ e.data = .null)
    (now sent : Int) : Faithful (r.take e (r.batcher.queueDelta now sent e)) := by
  by_cases hfirst : e.reset ∨ e.deltaKey ∉ r.batcher.sentDeltaKeys
  · obtain ⟨keys, hout⟩ := TransientBatcher.queueDelta_of_first hfirst now sent
    rw [hout, BatcherRun.take_append r e _ (_, [e])]
    have hkeyed := h.of_batcher (b := { r.batcher with sentDeltaKeys := keys }) rfl rfl h.idle
    exact (hkeyed.flushLocked sent).pass (fun _ => TransientBatcher.flushLocked_pendingDelta _ sent)
      fun _ => TransientBatcher.flushLocked_pendingUsage _ sent
  · have hreset : e.reset = false := by
      rw [not_or, Bool.not_eq_true] at hfirst
      exact hfirst.1
    obtain ⟨first, hfirst, hout⟩ := TransientBatcher.queueDelta_of_held hfirst now sent
    rw [hout, BatcherRun.take_append]
    rcases hfirst with rfl | ⟨rfl, hkey⟩
    · exact h.flushDelta.holdDelta he hdata hreset (fun held hheld => nomatch hheld) now
    · exact h.deliver_nil.holdDelta he hdata hreset hkey now

theorem queueUsage (h : Faithful r) (he : e.IsUsage) (now sent : Int) :
    Faithful (r.take e (r.batcher.queueUsage now sent e)) := by
  by_cases hsent : r.batcher.sentUsage = false
  · rw [TransientBatcher.queueUsage, if_pos hsent]
    have hnone := h.idle hsent
    have hstarted := h.of_batcher (b := { r.batcher with sentUsage := true, usageSent := now })
      rfl rfl fun _ => hnone
    refine hstarted.pass (fun hkind => ?_) fun _ => hnone
    exact absurd hkind (by simp [he.not_delta, he.not_other])
  · rw [TransientBatcher.queueUsage, if_neg hsent]
    have hheld := h.holdUsage he (by simpa using hsent)
    show Faithful (r.take e (if _ then _ else _))
    split_ifs
    · rw [BatcherRun.take_deliver]
      exact hheld.flushUsage sent
    · exact hheld

theorem beginTurn (h : Faithful r) (sent : Int) :
    Faithful (r.deliver (r.batcher.beginTurn sent e)) := by
  rw [TransientBatcher.beginTurn]
  split_ifs
  · exact (h.flushLocked sent).of_batcher rfl rfl
      fun _ => TransientBatcher.flushLocked_pendingUsage _ sent
  · exact h.deliver_nil

theorem queue (h : Faithful r) (hdata : e.IsDelta → e.data.isObject ∨ e.data = .null)
    (now sent : Int) : Faithful (r.take e (r.batcher.queue now sent e)) := by
  rw [TransientBatcher.queue]
  split_ifs with hdelta husage hstatus hend
  · exact h.queueDelta hdelta (hdata hdelta) now sent
  · exact h.queueUsage husage now sent
  · refine h.pass (fun hkind => ?_) fun hkind => ?_
    · exact absurd hkind (by simp [hdelta, IsOther, hstatus])
    · exact absurd hkind (by simp [husage, IsOther, hstatus])
  · have hnone := TransientBatcher.flushLocked_pendingUsage r.batcher sent
    have hpassed := (h.flushLocked sent).pass (e := e)
      (fun _ => TransientBatcher.flushLocked_pendingDelta _ sent) fun _ => hnone
    have hout := BatcherRun.take_append r e (r.batcher.flushLocked sent)
    exact hout (_, [e]) ▸ hpassed.of_batcher rfl rfl fun _ => hnone
  · have hpassed := (h.flushLocked sent).pass (e := e)
      (fun _ => TransientBatcher.flushLocked_pendingDelta _ sent)
      fun _ => TransientBatcher.flushLocked_pendingUsage _ sent
    exact BatcherRun.take_append r e (r.batcher.flushLocked sent) (_, [e]) ▸ hpassed

theorem push (h : Faithful r) (hdata : e.IsDelta → e.data.isObject ∨ e.data = .null)
    (now sent : Int) : Faithful (r.take e (r.batcher.push now sent e)) := by
  have hout := BatcherRun.take_append r e (r.batcher.beginTurn sent e)
    ((r.batcher.beginTurn sent e).1.queue now sent e)
  exact hout ▸ (h.beginTurn sent).queue hdata now sent

theorem wake (h : Faithful r) (now sent : Int) :
    Faithful (r.deliver (r.batcher.wake now sent)) := by
  obtain ⟨first, later, hfirst, hlater, hout⟩ := TransientBatcher.wake_eq r.batcher now sent
  rw [hout, BatcherRun.deliver_append]
  have hflushed : Faithful (r.deliver first) := by
    rcases hfirst with rfl | rfl
    · exact h.flushDelta
    · exact h.deliver_nil
  rcases hlater with rfl | rfl
  · exact hflushed.flushUsage sent
  · exact hflushed.deliver_nil

end Faithful

namespace BatcherEvent

/-- The data of a pushed delta is an object, as the stream makes it, or null. -/
def Ok (_ : BatcherRun) : BatcherEvent → Prop
  | .push _ _ e => e.IsDelta → e.data.isObject ∨ e.data = .null
  | _ => True

instance (r : BatcherRun) : (event : BatcherEvent) → Decidable (event.Ok r)
  | .push _ _ _ => inferInstanceAs (Decidable (_ → _))
  | .wake _ _ => isTrue trivial
  | .flush _ => isTrue trivial
  | .stop => isTrue trivial

end BatcherEvent

namespace Faithful

variable {r : BatcherRun}

theorem step (h : Faithful r) {event : BatcherEvent} (hok : event.Ok r) :
    Faithful (r.step event) := by
  cases event with
  | push now sent e => exact h.push hok now sent
  | wake now sent => exact h.wake now sent
  | flush sent => exact h.flushLocked sent
  | stop => exact h.of_batcher rfl rfl h.idle

theorem run (h : Run BatcherRun.step BatcherEvent.Ok {} r) : Faithful r :=
  h.invariant start fun _ _ hfaithful hok => hfaithful.step hok

end Faithful

/-! ### Offsets -/

/-- A delta carries the offset its text has after `before`. -/
def Placed (before : List AppEvent) (e : AppEvent) : Prop :=
  e.data.contains (lit "offset") ∧ jsonValueUint64 e.data (lit "offset") 0 =
    if e.reset then 0 else (streamText e.type e.responseId before).length

/-- Every delta carries the offset of its first byte. -/
def AllPlaced (events : List AppEvent) : Prop :=
  ∀ before e after, events = before ++ e :: after → e.IsDelta → Placed before e

/-- A batch is placed after the batches where its group was after the groups. -/
theorem Batch.placed {xs ys group : List AppEvent} {x y : AppEvent} (h : Batch (x :: group) y)
    (hbatched : Batched Batch xs ys) (hx : Placed xs x) : Placed ys y := by
  obtain ⟨first, rest, heq, hreset, hoffset, -⟩ := h.first
  obtain rfl : x = first := (List.cons.inj heq).1
  obtain ⟨-, htype, hid⟩ := h.reply x List.mem_cons_self
  have htext : streamText y.type y.responseId xs = streamText y.type y.responseId ys :=
    hbatched.foldl (fun _ _ text hgroup => hgroup.foldl_eq text) []
  rw [Placed, htype, hid, htext] at hx
  rw [Placed, Json.contains, jsonValueUint64, jsonValueInteger, hoffset, hreset]
  exact hx

/-- Only the deltas matter. -/
theorem allPlaced_filter {events : List AppEvent} :
    AllPlaced (events.filter (·.IsDelta)) ↔ AllPlaced events := by
  have hsame : ∀ before e, Placed (before.filter (·.IsDelta)) e ↔ Placed before e := by
    intro before e
    rw [Placed, Placed, streamText_filter]
  constructor
  · intro h before e after heq he
    refine (hsame before e).mp (h _ e (after.filter (·.IsDelta)) ?_ he)
    rw [heq, List.filter_append, List.filter_cons_of_pos (by simpa using he)]
  · intro h before e after heq he
    obtain ⟨before', rest, rfl, rfl, hrest⟩ := List.filter_eq_append_iff.mp heq
    obtain ⟨skipped, after', rfl, hskipped, -, -⟩ := List.filter_eq_cons_iff.mp hrest
    have hplaced := h (before' ++ skipped) e after' (by simp) he
    rw [← hsame, List.filter_append, List.filter_eq_nil_iff.mpr hskipped,
      List.append_nil] at hplaced
    exact hplaced

theorem Faithful.allPlaced {r : BatcherRun} (h : Faithful r) (hpushed : AllPlaced r.pushed) :
    AllPlaced r.delivered := by
  have hdeltas : ∀ before e after, r.pushed.filter (·.IsDelta) = before ++ e :: after →
      Placed before e := by
    intro before e after heq
    have hmem : e ∈ r.pushed.filter (·.IsDelta) := by simp [heq]
    exact allPlaced_filter.mpr hpushed before e after heq
      (by simpa using (List.mem_filter.mp hmem).2)
  refine allPlaced_filter.mp fun before e after heq _ => ?_
  refine h.deltas.at_prefix (fun _ _ _ _ _ hbatched hgroup hx => hgroup.placed hbatched hx)
    hdeltas before e (after ++ r.batcher.pendingDelta.toList) ?_
  rw [heq, List.append_assoc, List.cons_append]

/-! ### The whole run -/

theorem Caught.streamText_eq {pushed delivered : List AppEvent} (h : Caught pushed delivered)
    (type id : Bytes) : streamText type id delivered = streamText type id pushed := by
  rw [← streamText_filter pushed, ← streamText_filter delivered]
  exact (h.deltas.foldl (fun _ _ text hgroup => hgroup.foldl_eq text) []).symm

/-- **Faithful delivery.**  What was delivered and the delta held say the text
of every reply as it was pushed, and a flush leaves nothing out; every other
event is delivered once and in its place, after all that was pushed before it;
and a delivered delta is a batch of neighbours with the offset of the first. -/
theorem run_faithful {r : BatcherRun} (h : Run BatcherRun.step BatcherEvent.Ok {} r) :
    (∀ type id, streamText type id (r.delivered ++ r.batcher.pendingDelta.toList) =
      streamText type id r.pushed) ∧
    (∀ sent, Caught r.pushed (r.step (.flush sent)).delivered ∧
      ∀ type id, streamText type id (r.step (.flush sent)).delivered =
        streamText type id r.pushed) ∧
    r.delivered.filter (·.IsOther) = r.pushed.filter (·.IsOther) ∧
    (∀ before e after, r.pushed = before ++ e :: after → e.IsOther →
      ∃ before' after', r.delivered = before' ++ e :: after' ∧ Caught before before' ∧
        ∀ type id, streamText type id before' = streamText type id before) ∧
    Batched Batch (r.pushed.filter (·.IsDelta))
      (r.delivered.filter (·.IsDelta) ++ r.batcher.pendingDelta.toList) ∧
    (AllPlaced r.pushed → AllPlaced r.delivered) := by
  have hfaithful := Faithful.run h
  refine ⟨fun type id => ?_, fun sent => ?_, hfaithful.others, ?_, hfaithful.deltas,
    hfaithful.allPlaced⟩
  · have hheld : (r.batcher.pendingDelta.toList).filter (·.IsDelta) =
        r.batcher.pendingDelta.toList := by
      refine List.filter_eq_self.mpr fun e he => ?_
      simpa using (hfaithful.delta e (Option.mem_toList.mp he)).1
    rw [← streamText_filter r.pushed, ← streamText_filter (r.delivered ++ _),
      List.filter_append, hheld]
    exact (hfaithful.deltas.foldl (fun _ _ text hgroup => hgroup.foldl_eq text) []).symm
  · have hcaught : Caught r.pushed (r.step (.flush sent)).delivered :=
      (hfaithful.flushLocked sent).caught (TransientBatcher.flushLocked_pendingDelta _ sent)
        (TransientBatcher.flushLocked_pendingUsage _ sent)
    exact ⟨hcaught, hcaught.streamText_eq⟩
  · intro before e after heq he
    obtain ⟨before', after', hdelivered, hcaught⟩ := hfaithful.order before e after heq he
    exact ⟨before', after', hdelivered, hcaught, hcaught.streamText_eq⟩

/-- A reply of three pieces, usage twice, and the end of the turn, the thread
waking in between. -/
def streamedTurn : List BatcherEvent :=
  let delta (text : Bytes) (offset : UInt64) : AppEvent :=
    { type := kAnswerDelta
      data := .ofFields [(lit "response_id", .str (lit "r")), (lit "text", .str text),
        (lit "offset", .uint offset)] }
  let usage (n : UInt64) : AppEvent :=
    { type := kUsageUpdated, data := .ofFields [(lit "usage", .uint n)] }
  [.push 0 0 { type := kTurnStarted }, .push 1 1 (delta (lit "a") 0), .push 2 2 (delta (lit "b") 1),
    .push 3 3 (delta (lit "c") 2), .wake 4 4, .push 5 5 (usage 1), .push 6 6 (usage 2),
    .push 7 7 { type := kTurnCompleted }, .stop]

/-- The turn's end finds the last text and usage delivered. -/
theorem run_faithful_streamedTurn :
    let r := streamedTurn.foldl BatcherRun.step {}
    r.delivered.length = 6 ∧ ∀ sent, Caught r.pushed (r.step (.flush sent)).delivered := by
  intro r
  have hrun : Run BatcherRun.step BatcherEvent.Ok {} r := Run.of_allOk (by decide)
  exact ⟨by decide, fun sent => ((run_faithful hrun).2.1 sent).1⟩

end UAgent
