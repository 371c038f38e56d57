/-
UAgent/Api/AnthropicSlots.lean

What the events of an Anthropic stream do under the indices of its blocks
(`DecodeAnthropicEvent`, src/api/wire_stream.cc).  What is held under an index
is made by the events of that index alone (`slot_decodeEvents`), and so is the
content that they bring (`contentOf_decodeEvents`).
-/
import UAgent.Api.AnthropicStream

namespace UAgent

open Bytes

/-! ### The events of an index -/

/-- The index an event is about; an error and the start of the message are
about none. -/
def blockIndex (value : Json) : Option Int :=
  let type := jsonValueStr value (lit "type") []
  if value.isObject = false ∨ type = lit "error" ∨ type = lit "message_start" then none
  else eventIndex value

/-- What is held under an index. -/
def AnthropicStream.slot (s : AnthropicStream) (index : Int) :
    Option AnthropicBlock × Option StreamedCall :=
  (Assoc.lookup index s.blocks, Assoc.lookup index s.calls)

section Parts

theorem lookup_setCall (calls : List (Int × StreamedCall)) (index i : Int)
    (call : Option StreamedCall) (h : call = none → Assoc.lookup index calls = none) :
    Assoc.lookup i (setCall calls index call) =
      if i = index then call else Assoc.lookup i calls := by
  cases call with
  | some call => exact Assoc.lookup_insert index i call calls
  | none =>
    show Assoc.lookup i calls = _
    split_ifs with hi
    · rw [hi, h rfl]
    · rfl

theorem growCall_eq_none {block : AnthropicBlock} {held : Option StreamedCall} {delta : Json}
    (h : growCall block held delta = none) : held = none := by
  rw [growCall] at h
  split_ifs at h
  exact h

theorem slot_startHosted (s : AnthropicStream) (index i : Int) (started : Json) :
    (startHosted s index started).1.slot i = s.slot i := by
  simp only [startHosted]
  split_ifs <;> rfl

theorem slot_addStreamAnnotation (s : AnthropicStream) (cited : Json) (i : Int) :
    ( addStreamAnnotation s cited).slot i = s.slot i := by
  rw [ addStreamAnnotation]
  split_ifs <;> rfl

theorem slot_messageStart (s : AnthropicStream) (value : Json) (i : Int) :
    (messageStart s value).slot i = s.slot i := by
  rw [messageStart]
  cases jsonObject value (lit "message") with
  | none => rfl
  | some message =>
    dsimp only
    cases message.get? (lit "usage") <;> rfl

theorem slot_messageDelta (s : AnthropicStream) (value : Json) (i : Int) :
    (messageDelta s value).slot i = s.slot i := by
  rw [messageDelta]
  cases jsonObject value (lit "delta") <;> cases value.get? (lit "usage") <;> rfl

theorem slot_deltaBlock (s : AnthropicStream) (index i : Int) (held : AnthropicBlock)
    (delta : Json) :
    (deltaBlock s index held delta).1.slot i =
      if i = index then
        (some (growBlock held delta), growCall held (Assoc.lookup index s.calls) delta)
      else s.slot i := by
  have hslot : AnthropicStream.slot
      { s with
        blocks := Assoc.insert index (growBlock held delta) s.blocks
        calls := setCall s.calls index (growCall held (Assoc.lookup index s.calls) delta) } i =
      if i = index then
        (some (growBlock held delta), growCall held (Assoc.lookup index s.calls) delta)
      else s.slot i := by
    rw [AnthropicStream.slot, Assoc.lookup_insert, lookup_setCall _ _ _ _ growCall_eq_none]
    split_ifs <;> rfl
  rw [← hslot, deltaBlock]
  dsimp only
  split_ifs
  · rfl
  · rfl
  · rfl
  · split
    · exact slot_addStreamAnnotation _ _ i
    · rfl
  · rfl

/-- What is held under an index is there once the block is looked up. -/
theorem slot_touched (s : AnthropicStream) (index i : Int) :
    AnthropicStream.slot
      { s with
        blocks := Assoc.insert index ((Assoc.lookup index s.blocks).getD {}) s.blocks } i =
      if i = index then (some ((s.slot i).1.getD {}), (s.slot i).2) else s.slot i := by
  rw [AnthropicStream.slot, Assoc.lookup_insert]
  split_ifs with hi
  · rw [hi]
    rfl
  · rfl

end Parts

section Slots

variable [DoubleText] (parse : Bytes → Option Json)

/-- What an event makes of what its index holds. -/
def slotEvent (held : Option AnthropicBlock × Option StreamedCall) (value : Json) :
    Option AnthropicBlock × Option StreamedCall :=
  let type := jsonValueStr value (lit "type") []
  let block := held.1.getD {}
  if type = lit "content_block_start" then
    match jsonObject value (lit "content_block") with
    | some started => (some { block with block := started }, startCall held.2 started)
    | none => (some block, held.2)
  else if type = lit "content_block_delta" then
    match jsonObject value (lit "delta") with
    | some delta => (some (growBlock block delta), growCall block held.2 delta)
    | none => (some block, held.2)
  else if type = lit "content_block_stop" then
    (some (stoppedBlock parse block held.2), stopCall block held.2)
  else (some block, held.2)

theorem startCall_eq_none {held : Option StreamedCall} {started : Json}
    (h : startCall held started = none) : held = none := by
  rw [startCall] at h
  split_ifs at h
  exact h

theorem stopCall_eq_none {block : AnthropicBlock} {held : Option StreamedCall}
    (h : stopCall block held = none) : held = none := by
  rw [stopCall] at h
  split_ifs at h
  · split at h <;> exact absurd h (by simp)
  · exact h

theorem slot_startBlock (s : AnthropicStream) (index i : Int) (held : AnthropicBlock)
    (started : Json) :
    (startBlock s index held started).1.slot i =
      if i = index then
        (some { held with block := started }, startCall (Assoc.lookup index s.calls) started)
      else s.slot i := by
  have hslot : AnthropicStream.slot
      { s with
        blocks := Assoc.insert index { held with block := started } s.blocks
        calls := setCall s.calls index (startCall (Assoc.lookup index s.calls) started) } i =
      if i = index then
        (some { held with block := started }, startCall (Assoc.lookup index s.calls) started)
      else s.slot i := by
    rw [AnthropicStream.slot, Assoc.lookup_insert, lookup_setCall _ _ _ _ startCall_eq_none]
    split_ifs <;> rfl
  rw [← hslot, startBlock]
  dsimp only
  split_ifs
  · rfl
  · rfl
  · rfl
  · exact slot_startHosted _ index i started

theorem slot_stopBlock (s : AnthropicStream) (index i : Int) (held : AnthropicBlock) :
    (stopBlock parse s index held).1.slot i =
      if i = index then
        (some (stoppedBlock parse held (Assoc.lookup index s.calls)),
          stopCall held (Assoc.lookup index s.calls))
      else s.slot i := by
  show AnthropicStream.slot
    { s with
      blocks := Assoc.insert index (stoppedBlock parse held (Assoc.lookup index s.calls)) s.blocks
      calls := setCall s.calls index (stopCall held (Assoc.lookup index s.calls)) } i = _
  rw [AnthropicStream.slot, Assoc.lookup_insert, lookup_setCall _ _ _ _ stopCall_eq_none]
  split_ifs <;> rfl

theorem slot_blockEvent (s : AnthropicStream) (index i : Int) (value : Json) :
    (blockEvent parse s index value).1.slot i =
      if i = index then slotEvent parse (s.slot i) value else s.slot i := by
  have htouched := slot_touched s index i
  rw [blockEvent]
  by_cases hi : i = index
  · subst hi
    rw [if_pos rfl] at htouched ⊢
    rw [slotEvent]
    split_ifs
    · cases jsonObject value (lit "content_block") with
      | none => exact htouched
      | some started => exact (slot_startBlock _ i i _ started).trans (if_pos rfl)
    · cases jsonObject value (lit "delta") with
      | none => exact htouched
      | some delta => exact (slot_deltaBlock _ i i _ delta).trans (if_pos rfl)
    · exact (slot_stopBlock parse _ i i _).trans (if_pos rfl)
    · exact htouched
  · rw [if_neg hi] at htouched ⊢
    split_ifs
    · cases jsonObject value (lit "content_block") with
      | none => exact htouched
      | some started =>
        exact (slot_startBlock _ index i _ started).trans ((if_neg hi).trans htouched)
    · cases jsonObject value (lit "delta") with
      | none => exact htouched
      | some delta =>
        exact (slot_deltaBlock _ index i _ delta).trans ((if_neg hi).trans htouched)
    · exact (slot_stopBlock parse _ index i _).trans ((if_neg hi).trans htouched)
    · exact htouched

/-- **An event is about one index.** -/
theorem slot_decode (s : AnthropicStream) (value : Json) (i : Int) :
    (decodeAnthropicEvent parse s value).1.slot i =
      if blockIndex value = some i then slotEvent parse (s.slot i) value else s.slot i := by
  have hother (h : blockIndex value = none) :
      (if blockIndex value = some i then slotEvent parse (s.slot i) value else s.slot i) =
        s.slot i := by
    rw [h]
    exact if_neg (by simp)
  rw [decodeAnthropicEvent]
  by_cases hobject : value.isObject = false
  · rw [hother (if_pos (.inl hobject)), if_pos hobject]
  by_cases herror : jsonValueStr value (lit "type") [] = lit "error"
  · rw [hother (if_pos (.inr (.inl herror))), if_neg hobject, if_pos herror]
    rfl
  by_cases hmessage : jsonValueStr value (lit "type") [] = lit "message_start"
  · rw [hother (if_pos (.inr (.inr hmessage))), if_neg hobject, if_neg herror, if_pos hmessage]
    exact slot_messageStart s value i
  have hindex : blockIndex value = eventIndex value := by
    rw [blockIndex]
    refine if_neg ?_
    rintro (h | h | h)
    · exact hobject h
    · exact herror h
    · exact hmessage h
  rw [if_neg hobject, if_neg herror, if_neg hmessage]
  cases hfound : eventIndex value with
  | some index =>
    rw [hindex, hfound]
    show (blockEvent parse s index value).1.slot i = _
    rw [slot_blockEvent]
    simp only [Option.some_inj, eq_comm]
  | none =>
    rw [hother (hindex.trans hfound)]
    dsimp only
    split_ifs
    · exact slot_messageDelta s value i
    · rfl
    · rfl

/-- **A run of events** is about its indices, each by itself. -/
theorem slot_decodeEvents (s : AnthropicStream) (events : List Json) (i : Int) :
    (decodeAnthropicEvents parse s events).1.slot i =
      (events.filter fun e => blockIndex e = some i).foldl (slotEvent parse) (s.slot i) := by
  induction events generalizing s with
  | nil => rfl
  | cons e events ih =>
    show (decodeAnthropicEvents parse (decodeAnthropicEvent parse s e).1 events).1.slot i = _
    rw [ih, slot_decode]
    by_cases hindex : blockIndex e = some i
    · rw [if_pos hindex, List.filter_cons_of_pos (by simpa using hindex), List.foldl_cons]
    · rw [if_neg hindex, List.filter_cons_of_neg (by simpa using hindex)]

end Slots

/-! ### Order -/

/-- Blocks and calls stand in the order of their indices. -/
structure Ordered (s : AnthropicStream) : Prop where
  blocks : Assoc.Sorted s.blocks
  calls : Assoc.Sorted s.calls

theorem ordered_fresh : Ordered {} where
  blocks := List.Pairwise.nil
  calls := List.Pairwise.nil

theorem sorted_setCall {calls : List (Int × StreamedCall)} (h : Assoc.Sorted calls) (index : Int)
    (call : Option StreamedCall) : Assoc.Sorted (setCall calls index call) := by
  cases call with
  | some call => exact Assoc.sorted_insert h index call
  | none => exact h

theorem ordered_startHosted {s : AnthropicStream} (h : Ordered s) (index : Int) (started : Json) :
    Ordered (startHosted s index started).1 := by
  simp only [startHosted]
  split_ifs <;> exact ⟨h.blocks, h.calls⟩

theorem ordered_messageStart {s : AnthropicStream} (h : Ordered s) (value : Json) :
    Ordered (messageStart s value) := by
  rw [messageStart]
  cases jsonObject value (lit "message") with
  | none => exact h
  | some message =>
    dsimp only
    cases message.get? (lit "usage") <;> exact ⟨h.blocks, h.calls⟩

theorem ordered_messageDelta {s : AnthropicStream} (h : Ordered s) (value : Json) :
    Ordered (messageDelta s value) := by
  rw [messageDelta]
  cases jsonObject value (lit "delta") <;> cases value.get? (lit "usage") <;>
    exact ⟨h.blocks, h.calls⟩

theorem ordered_deltaBlock {s : AnthropicStream} (h : Ordered s) (index : Int)
    (held : AnthropicBlock) (delta : Json) : Ordered (deltaBlock s index held delta).1 := by
  have hput : Ordered
      { s with
        blocks := Assoc.insert index (growBlock held delta) s.blocks
        calls := setCall s.calls index (growCall held (Assoc.lookup index s.calls) delta) } :=
    ⟨Assoc.sorted_insert h.blocks _ _, sorted_setCall h.calls _ _⟩
  rw [deltaBlock]
  dsimp only
  split_ifs
  · exact hput
  · exact hput
  · exact ⟨hput.blocks, hput.calls⟩
  · split
    · rw [ addStreamAnnotation]
      split_ifs
      · exact hput
      · exact ⟨hput.blocks, hput.calls⟩
    · exact hput
  · exact hput

section Order

variable [DoubleText] {parse : Bytes → Option Json}

theorem ordered_startBlock {s : AnthropicStream} (h : Ordered s) (index : Int)
    (held : AnthropicBlock) (started : Json) : Ordered (startBlock s index held started).1 := by
  have hput : Ordered
      { s with
        blocks := Assoc.insert index { held with block := started } s.blocks
        calls := setCall s.calls index (startCall (Assoc.lookup index s.calls) started) } :=
    ⟨Assoc.sorted_insert h.blocks _ _, sorted_setCall h.calls _ _⟩
  rw [startBlock]
  dsimp only
  split_ifs
  · exact hput
  · exact ⟨hput.blocks, hput.calls⟩
  · exact hput
  · exact ordered_startHosted hput index started

theorem ordered_blockEvent {s : AnthropicStream} (h : Ordered s) (index : Int) (value : Json) :
    Ordered (blockEvent parse s index value).1 := by
  have htouched : Ordered
      { s with
        blocks := Assoc.insert index ((Assoc.lookup index s.blocks).getD {}) s.blocks } :=
    ⟨Assoc.sorted_insert h.blocks _ _, h.calls⟩
  rw [blockEvent]
  split_ifs
  · cases jsonObject value (lit "content_block") with
    | none => exact htouched
    | some started => exact ordered_startBlock htouched index _ started
  · cases jsonObject value (lit "delta") with
    | none => exact htouched
    | some delta => exact ordered_deltaBlock htouched index _ delta
  · exact ⟨Assoc.sorted_insert htouched.blocks _ _, sorted_setCall htouched.calls _ _⟩
  · exact htouched

theorem ordered_decode {s : AnthropicStream} (h : Ordered s) (value : Json) :
    Ordered (decodeAnthropicEvent parse s value).1 := by
  rw [decodeAnthropicEvent]
  cases eventIndex value with
  | some index =>
    dsimp only
    split_ifs
    · exact h
    · exact ⟨h.blocks, h.calls⟩
    · exact ordered_messageStart h value
    · exact ordered_blockEvent h index value
  | none =>
    dsimp only
    split_ifs
    · exact h
    · exact ⟨h.blocks, h.calls⟩
    · exact ordered_messageStart h value
    · exact ordered_messageDelta h value
    · exact ⟨h.blocks, h.calls⟩
    · exact h

theorem ordered_decodeEvents {s : AnthropicStream} (h : Ordered s) (events : List Json) :
    Ordered (decodeAnthropicEvents parse s events).1 := by
  induction events generalizing s with
  | nil => exact h
  | cons e events ih => exact ih (ordered_decode h e)

end Order

/-! ### Content -/

/-- What the events of an index bring to the answer. -/
def contentOf (index : Int) (events : List Json) (deltas : List WireStreamDelta) : Bytes :=
  ((events.zip deltas).filter fun e => blockIndex e.1 = some index).flatMap fun e => e.2.content

/-- What an event of a block brings to the answer. -/
def eventContent (value : Json) : Bytes :=
  let type := jsonValueStr value (lit "type") []
  if type = lit "content_block_start" then
    match jsonObject value (lit "content_block") with
    | some started =>
      if jsonValueStr started (lit "type") [] = lit "text" then
        jsonValueStr started (lit "text") [] else []
    | none => []
  else if type = lit "content_block_delta" then
    match jsonObject value (lit "delta") with
    | some delta =>
      if jsonValueStr delta (lit "type") [] = lit "text_delta" then
        jsonValueStr delta (lit "text") [] else []
    | none => []
  else []

theorem content_deltaBlock (s : AnthropicStream) (index : Int) (held : AnthropicBlock)
    (delta : Json) :
    (deltaBlock s index held delta).2.content =
      if jsonValueStr delta (lit "type") [] = lit "text_delta" then
        jsonValueStr delta (lit "text") [] else [] := by
  rw [deltaBlock]
  dsimp only
  split_ifs
  · rfl
  · rfl
  · rfl
  · split <;> rfl
  · rfl

section Content

variable [DoubleText] {parse : Bytes → Option Json}

theorem content_startBlock (s : AnthropicStream) (index : Int) (held : AnthropicBlock)
    (started : Json) :
    (startBlock s index held started).2.content =
      if jsonValueStr started (lit "type") [] = lit "text" then
        jsonValueStr started (lit "text") [] else [] := by
  rw [startBlock]
  dsimp only
  split_ifs <;> rfl

theorem content_blockEvent (s : AnthropicStream) (index : Int) (value : Json) :
    (blockEvent parse s index value).2.content = eventContent value := by
  rw [blockEvent, eventContent]
  split_ifs with hstart hdelta hstop
  · cases jsonObject value (lit "content_block") with
    | none => rfl
    | some started => exact content_startBlock _ index _ started
  · cases jsonObject value (lit "delta") with
    | none => rfl
    | some delta => exact content_deltaBlock _ index _ delta
  · rw [stopBlock]
    dsimp only
    split_ifs <;> rfl
  · rfl

theorem content_decode (s : AnthropicStream) {value : Json} {i : Int}
    (h : blockIndex value = some i) :
    (decodeAnthropicEvent parse s value).2.content = eventContent value := by
  rw [blockIndex] at h
  split_ifs at h with hnone
  rw [not_or, not_or] at hnone
  rw [decodeAnthropicEvent, if_neg hnone.1, if_neg hnone.2.1, if_neg hnone.2.2, h]
  exact content_blockEvent s i value

/-- The content of an index is what its events bring. -/
theorem contentOf_decodeEvents (s : AnthropicStream) (events : List Json) (i : Int) :
    contentOf i events (decodeAnthropicEvents parse s events).2 =
      (events.filter fun e => blockIndex e = some i).flatMap eventContent := by
  induction events generalizing s with
  | nil => rfl
  | cons e events ih =>
    have hrest := ih (decodeAnthropicEvent parse s e).1
    rw [contentOf] at hrest ⊢
    show List.flatMap _ (List.filter _ ((e, (decodeAnthropicEvent parse s e).2) ::
      events.zip (decodeAnthropicEvents parse (decodeAnthropicEvent parse s e).1 events).2)) = _
    by_cases hindex : blockIndex e = some i
    · rw [List.filter_cons_of_pos (by simpa using hindex),
        List.filter_cons_of_pos (by simpa using hindex), List.flatMap_cons, List.flatMap_cons,
        hrest, content_decode s hindex]
    · rw [List.filter_cons_of_neg (by simpa using hindex),
        List.filter_cons_of_neg (by simpa using hindex), hrest]

end Content

end UAgent
