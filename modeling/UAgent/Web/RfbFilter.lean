/-
UAgent/Web/RfbFilter.lean

The filter between a browser viewer and the screen's RFB server
(src/web/rfb_filter.cc).  It frames the viewer's byte stream into messages
as it arrives in chunks, passes display messages always and input messages
while the viewer may drive, and remembers what forwarded input holds down so
that `Release` can lift it.

`parse` frames a whole stream at once, as the filter does.  Main result:
`run_eq`: as long as no chunk is refused, what is forwarded is the handshake
and then the messages so framed that may pass, however the stream was cut.
-/
import UAgent.Base.Json
import Mathlib.Data.List.Basic

namespace UAgent

open Bytes

/-! ### Messages -/

def kMaxMessageBytes : Nat := 256 * 1024

/-- `input[offset]`, inside the text. -/
def byteAt (input : Bytes) (offset : Nat) : UInt8 := (input[offset]?).getD 0

/-- `Read16`: big endian. -/
def read16 (input : Bytes) (offset : Nat) : UInt16 :=
  (byteAt input offset).toUInt16 <<< 8 ||| (byteAt input (offset + 1)).toUInt16

/-- `Read32`: big endian. -/
def read32 (input : Bytes) (offset : Nat) : UInt32 :=
  (List.range 4).foldl (fun value index => value <<< 8 ||| (byteAt input (offset + index)).toUInt32) 0

/-- `Write16`. -/
def write16 (value : UInt16) : Bytes := [(value >>> 8).toUInt8, (value &&& 0xff).toUInt8]

/-- What stands at the front of the bytes held back: a message of some size,
too little to tell, or nothing the filter lets through. -/
inductive Framing where
  | more
  | refused
  | message (size : Nat) (display : Bool)
deriving DecidableEq

/-- The size a message says it has, by its type. -/
def declared (pending : Bytes) : Framing :=
  match (byteAt pending 0).toNat with
  -- SetPixelFormat
  | 0 => .message 20 true
  -- SetEncodings
  | 2 => if pending.length < 4 then .more else .message (4 + (read16 pending 2).toNat * 4) true
  -- FramebufferUpdateRequest
  | 3 => .message 10 true
  -- KeyEvent
  | 4 => .message 8 false
  -- PointerEvent, with optional extended button byte
  | 5 =>
    if pending.length < 2 then .more
    else .message (if byteAt pending 1 &&& 0x80 ≠ 0 then 7 else 6) false
  -- ClientCutText, including the signed extended form
  | 6 =>
    if pending.length < 8 then .more
    else
      let encoded := read32 pending 4
      let payload :=
        if encoded &&& 0x80000000 ≠ 0 then 0x100000000 - encoded.toNat else encoded.toNat
      if payload > kMaxMessageBytes - 8 then .refused else .message (8 + payload) false
  -- EnableContinuousUpdates
  | 150 => .message 10 true
  -- ClientFence
  | 248 => if pending.length < 9 then .more else .message (9 + (byteAt pending 8).toNat) true
  -- XVP power control
  | 250 => .message 4 false
  -- SetDesktopSize
  | 251 => .message 24 false
  -- QEMU extended key event
  | 255 => .message 12 false
  | _ => .refused

/-- What the loop of `Push` finds at the front of the bytes held back. -/
def framing (pending : Bytes) : Framing :=
  match declared pending with
  | .message size display =>
    if size > kMaxMessageBytes then .refused
    else if pending.length < size then .more
    else .message size display
  | unsized => unsized

/-! ### The filter -/

structure RfbInputFilter where
  handshakeRemaining : Nat := 14
  pending : Bytes := []
  /-- a `std::set`: the keys of a map to nothing -/
  heldKeys : List (Bytes × Unit) := []
  buttons : UInt8 := 0
  x : UInt16 := 0
  y : UInt16 := 0
deriving DecidableEq

/-- The key-up message of a key event. -/
def keyUp (message : Bytes) : Bytes :=
  if byteAt message 0 = 4 then message.set 1 0 else (message.set 2 0).set 3 0

/-- Whether a key event is a press. -/
def keyDown (message : Bytes) : Bool :=
  if byteAt message 0 = 4 then byteAt message 1 ≠ 0 else read16 message 2 ≠ 0

namespace RfbInputFilter

/-- What a forwarded message holds down. -/
def track (f : RfbInputFilter) (message : Bytes) : RfbInputFilter :=
  if byteAt message 0 = 4 ∨ byteAt message 0 = 255 then
    if keyDown message then { f with heldKeys := Assoc.insert (keyUp message) () f.heldKeys }
    else { f with heldKeys := Assoc.erase (keyUp message) f.heldKeys }
  else if byteAt message 0 = 5 then
    { f with
      buttons := byteAt message 1 &&& 0x7f
      x := read16 message 2
      y := read16 message 4 }
  else f

end RfbInputFilter

/-! ### Framing -/

theorem byteAt_append {p : Bytes} (q : Bytes) {i : Nat} (h : i < p.length) :
    byteAt (p ++ q) i = byteAt p i := by
  rw [byteAt, byteAt, List.getElem?_append_left h]

theorem read16_append {p : Bytes} (q : Bytes) {i : Nat} (h : i + 1 < p.length) :
    read16 (p ++ q) i = read16 p i := by
  rw [read16, read16, byteAt_append q (by omega), byteAt_append q h]

theorem read32_append {p : Bytes} (q : Bytes) {i : Nat} (h : i + 3 < p.length) :
    read32 (p ++ q) i = read32 p i := by
  simp only [read32, List.range_succ, List.range_zero, List.nil_append, List.cons_append,
    List.foldl_cons, List.foldl_nil]
  rw [byteAt_append q (by omega), byteAt_append q (by omega), byteAt_append q (by omega),
    byteAt_append q (by omega)]

theorem declared_pos {pending : Bytes} {size : Nat} {display : Bool}
    (h : declared pending = .message size display) : 0 < size := by
  unfold declared at h
  split at h <;> (try dsimp only at h) <;> (try split_ifs at h) <;> cases h <;> omega

theorem length_append_not_lt {p q : Bytes} {n : Nat} (h : ¬p.length < n) :
    ¬(p ++ q).length < n := by
  rw [List.length_append]
  omega

/-- What the bytes say of themselves does not change as more arrive. -/
theorem declared_append {p : Bytes} (hne : p ≠ []) (h : declared p ≠ .more) (q : Bytes) :
    declared (p ++ q) = declared p := by
  have h0 : byteAt (p ++ q) 0 = byteAt p 0 := byteAt_append q (List.length_pos_iff.mpr hne)
  unfold declared at h ⊢
  rw [h0]
  split at h
  case h_2 =>
    split_ifs at h with hlt
    · exact absurd rfl h
    · rw [if_neg (length_append_not_lt hlt), if_neg hlt, read16_append q (by omega)]
  case h_5 =>
    split_ifs at h with hlt
    · exact absurd rfl h
    all_goals rw [if_neg (length_append_not_lt hlt), if_neg hlt, byteAt_append q (by omega)]
  case h_6 =>
    by_cases hlt : p.length < 8
    · exact absurd (if_pos hlt) h
    · rw [if_neg (length_append_not_lt hlt), if_neg hlt, read32_append q (by omega)]
  case h_8 =>
    split_ifs at h with hlt
    · exact absurd rfl h
    · rw [if_neg (length_append_not_lt hlt), if_neg hlt, byteAt_append q (by omega)]
  all_goals rfl

/-- Bytes too few to tell the size are fewer than the message has. -/
theorem length_lt_of_more {p q : Bytes} (hne : p ≠ []) (h : declared p = .more) {size : Nat}
    {display : Bool} (h' : declared (p ++ q) = .message size display) : p.length < size := by
  have h0 : byteAt (p ++ q) 0 = byteAt p 0 := byteAt_append q (List.length_pos_iff.mpr hne)
  unfold declared at h h'
  rw [h0] at h'
  generalize (byteAt p 0).toNat = type at h h'
  split at h
  case h_2 =>
    simp only at h'
    split_ifs at h h' with hlt
    obtain ⟨rfl, -⟩ := Framing.message.inj h'
    omega
  case h_5 =>
    simp only at h'
    split_ifs at h h' with hlt <;> obtain ⟨rfl, -⟩ := Framing.message.inj h' <;> omega
  case h_6 =>
    have hlt : p.length < 8 := by
      by_contra hlt
      rw [if_neg hlt] at h
      dsimp only at h
      split_ifs at h
    simp only at h'
    split_ifs at h' <;> obtain ⟨rfl, -⟩ := Framing.message.inj h' <;> omega
  case h_8 =>
    simp only at h'
    split_ifs at h h' with hlt
    obtain ⟨rfl, -⟩ := Framing.message.inj h'
    omega
  all_goals cases h

/-- What `framing` makes of a size that is known. -/
theorem framing_of_declared {p : Bytes} {size : Nat} {display : Bool}
    (h : declared p = .message size display) :
    framing p = if size > kMaxMessageBytes then .refused
      else if p.length < size then .more else .message size display := by
  rw [framing, h]

/-- Nor does what stands at their front. -/
theorem framing_append {p : Bytes} (hne : p ≠ []) (h : framing p ≠ .more) (q : Bytes) :
    framing (p ++ q) = framing p := by
  have hmore : declared p ≠ .more := fun hmore => h (by rw [framing, hmore])
  rcases hd : declared p with - | - | ⟨size, display⟩
  · exact absurd hd hmore
  · rw [framing, framing, declared_append hne hmore q, hd]
  · have hd' := (declared_append hne hmore q).trans hd
    rw [framing_of_declared hd] at h
    rw [framing_of_declared hd, framing_of_declared hd']
    by_cases hbig : size > kMaxMessageBytes
    · rw [if_pos hbig, if_pos hbig]
    · rw [if_neg hbig] at h
      have hlen : ¬p.length < size := fun hlt => h (if_pos hlt)
      rw [if_neg hbig, if_neg hbig, if_neg hlen, if_neg (length_append_not_lt hlen)]

/-- A message that is framed is there whole. -/
theorem framing_message {p : Bytes} {size : Nat} {display : Bool}
    (h : framing p = .message size display) :
    0 < size ∧ size ≤ p.length ∧ size ≤ kMaxMessageBytes ∧
      declared p = .message size display := by
  rcases hd : declared p with - | - | ⟨size', display'⟩
  · rw [framing, hd] at h
    cases h
  · rw [framing, hd] at h
    cases h
  · rw [framing_of_declared hd] at h
    split_ifs at h with hbig hlen
    obtain ⟨rfl, rfl⟩ := Framing.message.inj h
    exact ⟨declared_pos hd, Nat.not_lt.mp hlen, Nat.not_lt.mp hbig, rfl⟩

/-- Nothing is refused where there is nothing. -/
theorem framing_ne_refused_nil : framing [] ≠ .refused := by decide

/-! ### The loop -/

namespace RfbInputFilter

/-- The loop of `Push`: the messages held back are forwarded or dropped one
by one.  It ends with whether the stream may go on. -/
def drain (f : RfbInputFilter) (input : Bool) (output : Bytes) : Bool × Bytes × RfbInputFilter :=
  if f.pending = [] then (true, output, f)
  else
    match _h : framing f.pending with
    | .more => (true, output, f)
    | .refused => (false, output, f)
    | .message size display =>
      let message := f.pending.take size
      let rest := f.pending.drop size
      if display || input then
        drain { f.track message with pending := rest } input (output ++ message)
      else drain { f with pending := rest } input output
termination_by f.pending.length
decreasing_by
  all_goals
    have hmessage := framing_message _h
    simp only [List.length_drop]
    omega

/-- `Push`. -/
def push (f : RfbInputFilter) (data : Bytes) (input : Bool) : Bool × Bytes × RfbInputFilter :=
  let bytes := min f.handshakeRemaining data.length
  let output := data.take bytes
  let data := data.drop bytes
  let f := { f with handshakeRemaining := f.handshakeRemaining - bytes }
  if data.length > kMaxMessageBytes - f.pending.length then (false, output, f)
  else drain { f with pending := f.pending ++ data } input output

/-- The pointer event without buttons that `Release` ends with. -/
def pointerUp (f : RfbInputFilter) : Bytes := [5, 0] ++ write16 f.x ++ write16 f.y

/-- `Release`: what lifts every key and button that is held. -/
def release (f : RfbInputFilter) : Bytes × RfbInputFilter :=
  let output := (f.heldKeys.map Prod.fst).flatten
  if f.buttons ≠ 0 then (output ++ f.pointerUp, { f with heldKeys := [], buttons := 0 })
  else (output, { f with heldKeys := [] })

end RfbInputFilter

/-! ### A whole stream -/

/-- A stream framed: its messages with whether they are display messages, the
bytes of the message that is not complete, and whether it is refused there. -/
structure Stream where
  messages : List (Bytes × Bool)
  rest : Bytes
  refused : Bool

/-- The messages of a stream. -/
def parse (s : Bytes) : Stream :=
  if s = [] then ⟨[], [], false⟩
  else
    match _h : framing s with
    | .more => ⟨[], s, false⟩
    | .refused => ⟨[], s, true⟩
    | .message size display =>
      let after := parse (s.drop size)
      { after with messages := (s.take size, display) :: after.messages }
termination_by s.length
decreasing_by
  have hmessage := framing_message _h
  simp only [List.length_drop]
  omega

@[simp] theorem parse_nil : parse [] = ⟨[], [], false⟩ := by
  rw [parse, if_pos rfl]

theorem parse_more {s : Bytes} (h : framing s = .more) : parse s = ⟨[], s, false⟩ := by
  rcases eq_or_ne s [] with rfl | hne
  · exact parse_nil
  · rw [parse, if_neg hne]
    split <;> simp_all

theorem parse_refused {s : Bytes} (h : framing s = .refused) : parse s = ⟨[], s, true⟩ := by
  rcases eq_or_ne s [] with rfl | hne
  · exact absurd h framing_ne_refused_nil
  · rw [parse, if_neg hne]
    split <;> simp_all

theorem parse_message {s : Bytes} {size : Nat} {display : Bool}
    (h : framing s = .message size display) :
    parse s = ⟨(s.take size, display) :: (parse (s.drop size)).messages,
      (parse (s.drop size)).rest, (parse (s.drop size)).refused⟩ := by
  have hne : s ≠ [] := by
    rintro rfl
    have hlen := (framing_message h).2.1
    exact absurd (framing_message h).1 (by rw [List.length_nil] at hlen; omega)
  rw [parse, if_neg hne]
  split <;> simp_all

/-- The rule of induction over the messages of a stream. -/
theorem parse_induction {P : Bytes → Prop} (more : ∀ s, framing s = .more → P s)
    (refused : ∀ s, framing s = .refused → P s)
    (message : ∀ s size display, framing s = .message size display → P (s.drop size) → P s)
    (s : Bytes) : P s := by
  induction hn : s.length using Nat.strong_induction_on generalizing s with
  | _ n ih =>
    subst hn
    rcases hs : framing s with - | - | ⟨size, display⟩
    · exact more s hs
    · exact refused s hs
    · refine message s size display hs (ih _ ?_ _ rfl)
      have hmessage := framing_message hs
      rw [List.length_drop]
      omega

/-- The messages and the bytes behind them are the stream. -/
theorem parse_flatten (s : Bytes) :
    ((parse s).messages.map Prod.fst).flatten ++ (parse s).rest = s := by
  induction s using parse_induction with
  | more s h => rw [parse_more h]; rfl
  | refused s h => rw [parse_refused h]; rfl
  | message s size display h ih =>
    rw [parse_message h]
    simp only [List.map_cons, List.flatten_cons, List.append_assoc]
    rw [ih, List.take_append_drop]

/-- A message by itself: the filter frames it as it is. -/
def Whole (message : Bytes) (display : Bool) : Prop :=
  framing message = .message message.length display

/-- A framed message is whole. -/
theorem whole_take {s : Bytes} {size : Nat} {display : Bool}
    (h : framing s = .message size display) : Whole (s.take size) display := by
  obtain ⟨hpos, hle, hmax, hd⟩ := framing_message h
  have hlen : (s.take size).length = size := by rw [List.length_take, Nat.min_eq_left hle]
  have hne : s.take size ≠ [] := by
    rw [← List.length_pos_iff, hlen]
    exact hpos
  have hsplit : s.take size ++ s.drop size = s := List.take_append_drop size s
  have hmore : declared (s.take size) ≠ .more := fun hmore => by
    have hlt := length_lt_of_more hne hmore (hsplit.symm ▸ hd)
    omega
  have hd' : declared (s.take size) = .message size display := by
    rw [← declared_append hne hmore (s.drop size), hsplit, hd]
  rw [Whole, framing_of_declared hd', hlen, if_neg (Nat.not_lt.mpr hmax), if_neg (Nat.lt_irrefl _)]

/-- Every message of a stream is whole. -/
theorem whole_of_mem_parse {s : Bytes} {m : Bytes × Bool} (h : m ∈ (parse s).messages) :
    Whole m.1 m.2 := by
  induction s using parse_induction with
  | more s hs =>
    rw [parse_more hs] at h
    cases h
  | refused s hs =>
    rw [parse_refused hs] at h
    cases h
  | message s size display hs ih =>
    rw [parse_message hs] at h
    rcases List.mem_cons.mp h with rfl | h
    · exact whole_take hs
    · exact ih h

/-- More bytes go on where the stream stopped. -/
theorem parse_append {a : Bytes} (h : (parse a).refused = false) (b : Bytes) :
    parse (a ++ b) =
      ⟨(parse a).messages ++ (parse ((parse a).rest ++ b)).messages,
        (parse ((parse a).rest ++ b)).rest, (parse ((parse a).rest ++ b)).refused⟩ := by
  induction a using parse_induction with
  | more s hs => rw [parse_more hs]; rfl
  | refused s hs =>
    rw [parse_refused hs] at h
    cases h
  | message s size display hs ih =>
    obtain ⟨hpos, hle, -, -⟩ := framing_message hs
    have hne : s ≠ [] := by
      rintro rfl
      rw [List.length_nil] at hle
      omega
    have hs' : framing (s ++ b) = .message size display := by
      rw [framing_append hne (by simp [hs]), hs]
    rw [parse_message hs] at h ⊢
    rw [parse_message hs', List.take_append_of_le_length hle, List.drop_append_of_le_length hle,
      ih h]
    rfl

/-- The bytes behind the messages hold no message yet. -/
theorem parse_rest {s : Bytes} (h : (parse s).refused = false) :
    parse (parse s).rest = ⟨[], (parse s).rest, false⟩ := by
  induction s using parse_induction with
  | more s hs => rw [parse_more hs]; exact parse_more hs
  | refused s hs =>
    rw [parse_refused hs] at h
    cases h
  | message s size display hs ih =>
    rw [parse_message hs] at h ⊢
    exact ih h

/-! ### What is forwarded -/

/-- The messages of a stream that may pass. -/
def forwarded (input : Bool) (messages : List (Bytes × Bool)) : List Bytes :=
  (messages.filter fun m => m.2 || input).map Prod.fst

namespace RfbInputFilter

@[simp] theorem track_pending (f : RfbInputFilter) (message : Bytes) :
    (f.track message).pending = f.pending := by
  unfold track
  split_ifs <;> rfl

@[simp] theorem track_handshake (f : RfbInputFilter) (message : Bytes) :
    (f.track message).handshakeRemaining = f.handshakeRemaining := by
  unfold track
  split_ifs <;> rfl

/-- Tracking does not look at the bytes held back. -/
theorem track_setPending (f : RfbInputFilter) (message rest : Bytes) :
    ({ f with pending := rest } : RfbInputFilter).track message =
      { f.track message with pending := rest } := by
  unfold track
  split_ifs <;> rfl

theorem foldl_track_setPending (messages : List Bytes) (f : RfbInputFilter) (rest : Bytes) :
    messages.foldl track { f with pending := rest } =
      { messages.foldl track f with pending := rest } := by
  induction messages generalizing f with
  | nil => rfl
  | cons message messages ih => rw [List.foldl_cons, List.foldl_cons, track_setPending, ih]

theorem drain_more {f : RfbInputFilter} (h : framing f.pending = .more) (input : Bool)
    (output : Bytes) : f.drain input output = (true, output, f) := by
  rw [drain]
  split_ifs
  · rfl
  · split <;> simp_all

theorem drain_refused {f : RfbInputFilter} (h : framing f.pending = .refused) (input : Bool)
    (output : Bytes) : f.drain input output = (false, output, f) := by
  have hne : f.pending ≠ [] := by
    intro hnil
    rw [hnil] at h
    exact framing_ne_refused_nil h
  rw [drain, if_neg hne]
  split <;> simp_all

theorem drain_message {f : RfbInputFilter} {size : Nat} {display : Bool}
    (h : framing f.pending = .message size display) (input : Bool) (output : Bytes) :
    f.drain input output =
      if display || input then
        drain { f.track (f.pending.take size) with pending := f.pending.drop size } input
          (output ++ f.pending.take size)
      else drain { f with pending := f.pending.drop size } input output := by
  have hne : f.pending ≠ [] := by
    intro hnil
    obtain ⟨hpos, hle, -, -⟩ := framing_message h
    rw [hnil, List.length_nil] at hle
    omega
  rw [drain, if_neg hne]
  split <;> simp_all

/-- **The loop forwards the messages of the bytes held back** that may pass. -/
theorem drain_eq (f : RfbInputFilter) (input : Bool) (output : Bytes) :
    f.drain input output =
      (!(parse f.pending).refused,
        output ++ (forwarded input (parse f.pending).messages).flatten,
        { (forwarded input (parse f.pending).messages).foldl track f with
          pending := (parse f.pending).rest }) := by
  induction hp : f.pending using parse_induction generalizing f output with
  | more s hs =>
    subst hp
    rw [drain_more hs, parse_more hs]
    simp [forwarded]
  | refused s hs =>
    subst hp
    rw [drain_refused hs, parse_refused hs]
    simp [forwarded]
  | message s size display hs ih =>
    subst hp
    rw [drain_message hs, parse_message hs]
    by_cases hpass : (display || input) = true
    · rw [if_pos hpass, ih _ _ rfl, foldl_track_setPending]
      simp [forwarded, hpass]
    · rw [if_neg hpass, ih _ _ rfl, foldl_track_setPending]
      simp [forwarded, hpass]

@[simp] theorem foldl_track_handshake (messages : List Bytes) (f : RfbInputFilter) :
    (messages.foldl track f).handshakeRemaining = f.handshakeRemaining := by
  induction messages generalizing f with
  | nil => rfl
  | cons message messages ih => rw [List.foldl_cons, ih, track_handshake]

/-- What `Push` does: the handshake passes, and the rest is framed. -/
theorem push_eq (f : RfbInputFilter) (data : Bytes) (input : Bool) :
    f.push data input =
      let body := data.drop f.handshakeRemaining
      let s := parse (f.pending ++ body)
      let f' := { f with handshakeRemaining := f.handshakeRemaining - data.length }
      if body.length > kMaxMessageBytes - f.pending.length then
        (false, data.take f.handshakeRemaining, f')
      else (!s.refused, data.take f.handshakeRemaining ++ (forwarded input s.messages).flatten,
        { (forwarded input s.messages).foldl track f' with pending := s.rest }) := by
  have htake : data.take (min f.handshakeRemaining data.length) = data.take f.handshakeRemaining :=
    List.take_eq_take_min.symm
  have hdrop : data.drop (min f.handshakeRemaining data.length) = data.drop f.handshakeRemaining := by
    rcases Nat.le_total f.handshakeRemaining data.length with h | h
    · rw [Nat.min_eq_left h]
    · rw [Nat.min_eq_right h, List.drop_length, List.drop_eq_nil_of_le h]
  have hremaining : f.handshakeRemaining - min f.handshakeRemaining data.length =
      f.handshakeRemaining - data.length := by omega
  unfold push
  dsimp only
  rw [htake, hdrop, hremaining]
  split_ifs
  · rfl
  · rw [drain_eq]
    dsimp only
    rw [foldl_track_setPending _
      { f with handshakeRemaining := f.handshakeRemaining - data.length }]

/-! ### Chunks -/

/-- The bytes forwarded for chunks that come one after another, each with
whether input may pass; nothing when one is refused. -/
def run (f : RfbInputFilter) : List (Bytes × Bool) → Option (Bytes × RfbInputFilter)
  | [] => some ([], f)
  | (data, input) :: pushes =>
    match f.push data input with
    | (false, _, _) => none
    | (true, output, f) => (run f pushes).map fun after => (output ++ after.1, after.2)

/-- Between two calls the bytes held back hold no message, within the limit. -/
structure Waits (f : RfbInputFilter) : Prop where
  parse_pending : parse f.pending = ⟨[], f.pending, false⟩
  length_le : f.pending.length ≤ kMaxMessageBytes

theorem Waits.fresh : Waits {} := ⟨parse_nil, Nat.zero_le _⟩

/-- What an accepted chunk does. -/
structure Accepted (f : RfbInputFilter) (data : Bytes) (input : Bool) (output : Bytes)
    (f' : RfbInputFilter) : Prop where
  fits : f.pending.length + (data.drop f.handshakeRemaining).length ≤ kMaxMessageBytes
  framed : (parse (f.pending ++ data.drop f.handshakeRemaining)).refused = false
  output_eq : output = data.take f.handshakeRemaining ++
    (forwarded input (parse (f.pending ++ data.drop f.handshakeRemaining)).messages).flatten
  next_eq : f' = { (forwarded input (parse (f.pending ++ data.drop f.handshakeRemaining)).messages
      ).foldl track { f with handshakeRemaining := f.handshakeRemaining - data.length } with
    pending := (parse (f.pending ++ data.drop f.handshakeRemaining)).rest }

theorem push_accepted {f : RfbInputFilter} (hf : Waits f) {data : Bytes} {input : Bool}
    {output : Bytes} {f' : RfbInputFilter} (h : f.push data input = (true, output, f')) :
    Accepted f data input output f' := by
  have hlen := hf.length_le
  rw [push_eq] at h
  dsimp only at h
  split_ifs at h with hfits
  · cases h
  · simp only [Prod.mk.injEq, Bool.not_eq_true'] at h
    exact ⟨by omega, h.1, h.2.1.symm, h.2.2.symm⟩

theorem Accepted.waits {f f' : RfbInputFilter} {data output : Bytes} {input : Bool}
    (h : Accepted f data input output f') : Waits f' := by
  have hflat := congrArg List.length (parse_flatten (f.pending ++ data.drop f.handshakeRemaining))
  have hfits := h.fits
  rw [List.length_append, List.length_append] at hflat
  rw [h.next_eq]
  exact ⟨parse_rest h.framed, by dsimp only; omega⟩

/-- A chunk is refused when it and the bytes held back are too many, or at a
message that is refused. -/
theorem push_refused_iff {f : RfbInputFilter} (hf : Waits f) (data : Bytes) (input : Bool) :
    (f.push data input).1 = false ↔
      f.pending.length + (data.drop f.handshakeRemaining).length > kMaxMessageBytes ∨
        (parse (f.pending ++ data.drop f.handshakeRemaining)).refused = true := by
  have hlen := hf.length_le
  rw [push_eq]
  dsimp only
  split_ifs with hfits
  · exact iff_of_true rfl (.inl (by omega))
  · simp only [Bool.not_eq_false']
    constructor
    · exact .inr
    · rintro (hbig | h)
      · exact absurd hbig (by omega)
      · exact h

/-- The chunks of a run. -/
theorem run_cons {f : RfbInputFilter} {push : Bytes × Bool} {pushes : List (Bytes × Bool)}
    {out : Bytes} {f' : RfbInputFilter} (h : run f (push :: pushes) = some (out, f')) :
    ∃ output f₁ rest, f.push push.1 push.2 = (true, output, f₁) ∧
      run f₁ pushes = some (rest, f') ∧ out = output ++ rest := by
  rw [run] at h
  rcases hpush : f.push push.1 push.2 with ⟨- | -, output, f₁⟩
  · rw [hpush] at h
    cases h
  · rw [hpush] at h
    obtain ⟨⟨rest, f''⟩, hrun, heq⟩ := Option.map_eq_some_iff.mp h
    obtain ⟨rfl, rfl⟩ := Prod.mk.inj heq
    exact ⟨output, f₁, rest, rfl, hrun, rfl⟩

/-- What a run from some point forwards, the permission being the same
throughout. -/
theorem run_eq {f : RfbInputFilter} (hf : Waits f) {input : Bool} {chunks : List Bytes}
    {out : Bytes} {f' : RfbInputFilter} (h : run f (chunks.map (·, input)) = some (out, f')) :
    let s := parse (f.pending ++ chunks.flatten.drop f.handshakeRemaining)
    out = chunks.flatten.take f.handshakeRemaining ++ (forwarded input s.messages).flatten ∧
      f'.pending = s.rest ∧ s.refused = false ∧ Waits f' ∧
      f'.handshakeRemaining = f.handshakeRemaining - chunks.flatten.length := by
  induction chunks generalizing f out with
  | nil =>
    obtain ⟨rfl, rfl⟩ := Prod.mk.inj (Option.some.inj h)
    simp [hf.parse_pending, forwarded, hf]
  | cons data chunks ih =>
    obtain ⟨output, f₁, rest, hpush, hrun, rfl⟩ := run_cons h
    have hacc := push_accepted hf hpush
    obtain ⟨hrest, hpending, hrefused, hwaits, hremaining⟩ := ih hacc.waits hrun
    have hpending₁ := congrArg RfbInputFilter.pending hacc.next_eq
    have hremaining₁ : f₁.handshakeRemaining = f.handshakeRemaining - data.length := by
      rw [hacc.next_eq]
      simp
    -- The rest of the stream is framed from where this chunk left off.
    have hbody : f.pending ++ (data :: chunks).flatten.drop f.handshakeRemaining =
        f.pending ++ data.drop f.handshakeRemaining ++
          chunks.flatten.drop (f.handshakeRemaining - data.length) := by
      rw [List.flatten_cons, List.drop_append, List.append_assoc]
    have hparse := parse_append hacc.framed
      (chunks.flatten.drop (f.handshakeRemaining - data.length))
    dsimp only at hpending₁
    rw [← hbody, ← hpending₁] at hparse
    rw [hremaining₁] at hrest hpending hrefused hremaining
    refine ⟨?_, ?_, ?_, hwaits, ?_⟩
    · -- Either the handshake is still going on, or it leaves nothing to later chunks.
      rw [hparse, hacc.output_eq, hrest, List.flatten_cons, List.take_append]
      simp only [forwarded, List.filter_append, List.map_append, List.flatten_append]
      rcases Nat.le_total data.length f.handshakeRemaining with hle | hle
      · rw [List.drop_eq_nil_of_le hle, List.append_nil, hf.parse_pending]
        simp
      · rw [Nat.sub_eq_zero_of_le hle]
        simp
    · rw [hparse, hpending]
    · rw [hparse, hrefused]
    · rw [hremaining, List.flatten_cons, List.length_append, Nat.sub_sub]

end RfbInputFilter

end UAgent
