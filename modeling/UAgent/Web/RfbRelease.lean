/-
UAgent/Web/RfbRelease.lean

What is held down on the screen's server after `Release`
(src/web/rfb_filter.cc).

`Screen` is the server as far as input goes: which keys are down, which
buttons, and where the pointer is.  The server may tell keys apart by
anything in a key event but whether it is a press (`key`, a function of the
key-up message), so a plain key and a QEMU one may be two keys or one.

Main result: `release_lifts_iff`.  The filter remembers the first button
byte of a pointer event; the second byte of the extended form it does not
look at.
-/
import UAgent.Web.RfbForwards

namespace UAgent

open Bytes Rfb

/-! ### The server -/

/-- What the server takes to be held down. -/
structure Screen (κ : Type*) where
  keys : κ → Bool := fun _ => false
  /-- the buttons of the first byte, and those of the extended byte -/
  buttons : UInt8 × UInt8 := (0, 0)
  position : UInt16 × UInt16 := (0, 0)

/-- The buttons a pointer event holds. -/
def pointerButtons (message : Bytes) : UInt8 × UInt8 :=
  (byteAt message 1 &&& 0x7f, if byteAt message 1 &&& 0x80 ≠ 0 then byteAt message 6 else 0)

namespace Screen

variable {κ : Type*} [DecidableEq κ] (key : Bytes → κ)

/-- One message at the server. -/
def receive (s : Screen κ) (message : Bytes) : Screen κ :=
  if byteAt message 0 = 4 ∨ byteAt message 0 = 255 then
    { s with keys := Function.update s.keys (key (keyUp message)) (keyDown message) }
  else if byteAt message 0 = 5 then
    { s with
      buttons := pointerButtons message
      position := (read16 message 2, read16 message 4) }
  else s

/-- The server after the bytes that follow the handshake.  They are cut as the
filter cuts them, which for keys, the pointer and all it measures as the
protocol does is the protocol's cut (`after_of_reads`). -/
def after (sent : Bytes) : Screen κ :=
  ((parse (sent.drop 14)).messages.map Prod.fst).foldl (receive key) {}

theorem after_of_reads {sent : Bytes} {messages : List Bytes} {rest : Bytes}
    (h : Rfb.Reads (sent.drop 14) messages rest) (hm : MeasuredAlike messages rest)
    (hmeets : ¬Meets messages rest) : after key sent = messages.foldl (receive key) {} := by
  rcases parse_of_reads h hm with ⟨-, hmet⟩ | ⟨hparse, -⟩
  · exact absurd hmet hmeets
  · rw [after, hparse, List.map_map]
    exact congrArg (List.foldl (receive key) {}) (List.map_id messages)

end Screen

/-! ### Numbers -/

/-- The two bytes of a number give it back. -/
theorem split16 (value : UInt16) :
    (value >>> 8).toUInt8.toUInt16 <<< 8 ||| (value &&& 0xff).toUInt8.toUInt16 = value := by
  have hlt : value.toNat < 65536 := value.toNat_lt
  have hhigh : value.toNat >>> 8 % 256 = value.toNat / 256 := by
    rw [Nat.shiftRight_eq_div_pow]
    omega
  have hlow : value.toNat % 256 &&& 255 = value.toNat % 256 := by
    rw [Nat.and_two_pow_sub_one_eq_mod _ 8]
    omega
  have hshift : (value.toNat / 256) <<< 8 % 65536 = (value.toNat / 256) <<< 8 := by
    rw [Nat.shiftLeft_eq]
    omega
  have hnat : (value.toNat >>> 8 % 256) <<< 8 % 65536 ||| value.toNat % 256 &&& 255 =
      value.toNat := by
    rw [hhigh, hshift, hlow, ← Nat.shiftLeft_add_eq_or_of_lt (by omega), Nat.shiftLeft_eq]
    omega
  exact UInt16.toNat_inj.mp (by simpa using hnat)

/-! ### Whole messages one after another -/

theorem Whole.ne_nil {message : Bytes} {display : Bool} (h : Whole message display) :
    message ≠ [] := List.length_pos_iff.mp (framing_message h).1

/-- Whole messages are framed as they are. -/
theorem parse_flatten_whole {messages : List Bytes} (h : ∀ m ∈ messages, ∃ display, Whole m display) :
    (parse messages.flatten).messages.map Prod.fst = messages := by
  induction messages with
  | nil => rw [List.flatten_nil, parse_nil]; rfl
  | cons m messages ih =>
    obtain ⟨display, hm⟩ := h m List.mem_cons_self
    have hframing : framing (m ++ messages.flatten) = .message m.length display := by
      rw [framing_append hm.ne_nil (by simp [show framing m = _ from hm]), hm]
    rw [List.flatten_cons, parse_message hframing, List.take_left, List.drop_left, List.map_cons,
      ih fun m' hm' => h m' (List.mem_cons_of_mem m hm')]

/-! ### Key events -/

/-- A key event of either form. -/
def IsKey (message : Bytes) : Prop := byteAt message 0 = 4 ∨ byteAt message 0 = 255

instance (message : Bytes) : Decidable (IsKey message) := by
  unfold IsKey; infer_instance

theorem byteAt_set (message : Bytes) (i j : Nat) :
    byteAt (message.set i 0) j = if i = j then 0 else byteAt message j := by
  rw [byteAt, byteAt, List.getElem?_set]
  split_ifs <;> rfl

theorem byteAt_keyUp_zero (message : Bytes) : byteAt (keyUp message) 0 = byteAt message 0 := by
  unfold keyUp
  split_ifs <;> simp [byteAt_set]

@[simp] theorem length_keyUp (message : Bytes) : (keyUp message).length = message.length := by
  unfold keyUp
  split_ifs <;> simp

@[simp] theorem keyUp_keyUp (message : Bytes) : keyUp (keyUp message) = keyUp message := by
  have h0 := byteAt_keyUp_zero message
  by_cases h : byteAt message 0 = 4
  · rw [keyUp, if_pos (h0.trans h), keyUp, if_pos h, List.set_set]
  · rw [keyUp, if_neg (h0.trans_ne h), keyUp, if_neg h, List.set_comm _ _ (by decide),
      List.set_set, List.set_comm _ _ (by decide), List.set_set]

/-- A key-up message is no press. -/
@[simp] theorem keyDown_keyUp (message : Bytes) : keyDown (keyUp message) = false := by
  have h0 := byteAt_keyUp_zero message
  by_cases h : byteAt message 0 = 4
  · rw [keyDown, if_pos (h0.trans h), keyUp, if_pos h]
    simp [byteAt_set]
  · rw [keyDown, if_neg (h0.trans_ne h), keyUp, if_neg h]
    simp [read16, byteAt_set]

/-- The size of a key event is in its type. -/
theorem declared_of_isKey {message : Bytes} (h : IsKey message) :
    declared message = .message (if byteAt message 0 = 4 then 8 else 12) false := by
  rcases h with h | h <;> rw [declared, h] <;> rfl

theorem whole_keyUp {message : Bytes} (h : IsKey message) {display : Bool}
    (hm : Whole message display) : Whole (keyUp message) false := by
  have h0 := byteAt_keyUp_zero message
  have hkey : IsKey (keyUp message) := by rwa [IsKey, h0]
  obtain ⟨-, -, hmax, hd⟩ := framing_message hm
  rw [declared_of_isKey h] at hd
  have hsize := (Framing.message.inj hd).1
  rw [Whole, framing_of_declared (declared_of_isKey hkey), h0, hsize, length_keyUp,
    if_neg (Nat.not_lt.mpr hmax), if_neg (Nat.lt_irrefl _)]

/-! ### The filter's messages -/

namespace RfbInputFilter

/-- `Release` as messages. -/
def releaseMessages (f : RfbInputFilter) : List Bytes :=
  f.heldKeys.map Prod.fst ++ if f.buttons ≠ 0 then [f.pointerUp] else []

theorem release_fst (f : RfbInputFilter) : f.release.1 = f.releaseMessages.flatten := by
  unfold release releaseMessages
  dsimp only
  split_ifs <;> simp

/-- What the filter remembers of the input it forwarded. -/
def held (f : RfbInputFilter) : List (Bytes × Unit) × UInt8 × UInt16 × UInt16 :=
  (f.heldKeys, f.buttons, f.x, f.y)

theorem held_track {f g : RfbInputFilter} (h : f.held = g.held) (message : Bytes) :
    (f.track message).held = (g.track message).held := by
  simp only [held, Prod.mk.injEq] at h
  unfold track
  split_ifs <;> simp [held, h]

theorem held_foldl_track {f g : RfbInputFilter} (h : f.held = g.held) (messages : List Bytes) :
    (messages.foldl track f).held = (messages.foldl track g).held := by
  induction messages generalizing f g with
  | nil => exact h
  | cons message messages ih => exact ih (held_track h message)

/-- What a run forwards behind the handshake are whole messages, and the
filter has tracked them. -/
theorem run_messages {f : RfbInputFilter} (hf : Waits f) {pushes : List (Bytes × Bool)} {out : Bytes}
    {f' : RfbInputFilter} (h : run f pushes = some (out, f')) :
    ∃ messages : List Bytes, (∀ m ∈ messages, ∃ display, Whole m display) ∧
      out.drop f.handshakeRemaining = messages.flatten ∧
      f'.held = (messages.foldl track f).held := by
  induction pushes generalizing f out with
  | nil =>
    obtain ⟨rfl, rfl⟩ := Prod.mk.inj (Option.some.inj h)
    exact ⟨[], by simp, by simp, rfl⟩
  | cons push pushes ih =>
    obtain ⟨output, f₁, rest, hpush, hrun, rfl⟩ := run_cons h
    have hacc := push_accepted hf hpush
    obtain ⟨messages, hwhole, hrest, hheld⟩ := ih hacc.waits hrun
    have hremaining : f₁.handshakeRemaining = f.handshakeRemaining - push.1.length := by
      rw [hacc.next_eq]
      simp
    have houtput := hacc.output_eq
    have hnext := hacc.next_eq
    obtain ⟨first, hfirst⟩ : ∃ first, first = forwarded push.2
        (parse (f.pending ++ push.1.drop f.handshakeRemaining)).messages := ⟨_, rfl⟩
    rw [← hfirst] at houtput hnext
    refine ⟨first ++ messages, fun m hm => ?_, ?_, ?_⟩
    · rcases List.mem_append.mp hm with hm | hm
      · rw [hfirst, forwarded] at hm
        obtain ⟨m', hm', rfl⟩ := List.mem_map.mp hm
        exact ⟨m'.2, whole_of_mem_parse (List.mem_of_mem_filter hm')⟩
      · exact hwhole m hm
    · rw [hremaining] at hrest
      rw [houtput, List.flatten_append]
      rcases Nat.le_total f.handshakeRemaining push.1.length with hle | hle
      · -- The handshake ends in this chunk.
        rw [Nat.sub_eq_zero_of_le hle, List.drop_zero] at hrest
        have hlen : (push.1.take f.handshakeRemaining).length = f.handshakeRemaining := by
          rw [List.length_take, Nat.min_eq_left hle]
        rw [List.append_assoc, List.drop_append, hlen, Nat.sub_self, List.drop_zero, ← hrest,
          List.drop_eq_nil_of_le hlen.le, List.nil_append]
      · have hnone : first = [] := by
          rw [hfirst, List.drop_eq_nil_of_le hle, List.append_nil, hf.parse_pending]
          rfl
        rw [hnone, List.take_of_length_le hle, List.flatten_nil, List.append_nil,
          List.nil_append, List.drop_append, List.drop_eq_nil_of_le hle, List.nil_append, hrest]
    · have hfirst' : f₁.held = (first.foldl track f).held := by
        rw [hnext]
        have hsame : ({ f with
            handshakeRemaining := f.handshakeRemaining - push.1.length } : RfbInputFilter).held =
              f.held := rfl
        exact held_foldl_track hsame first
      rw [hheld, List.foldl_append]
      exact held_foldl_track hfirst' messages

end RfbInputFilter

/-! ### Filter and server side by side -/

variable {κ : Type*} [DecidableEq κ] (key : Bytes → κ)

/-- The filter's memory and the server's state: every key that is down has
its key-up message remembered, and the first button byte and the position
are the same. -/
structure Mirrors (f : RfbInputFilter) (s : Screen κ) : Prop where
  keys : ∀ k, s.keys k = true → ∃ up ∈ f.heldKeys.map Prod.fst, key up = k
  ups : ∀ up ∈ f.heldKeys.map Prod.fst, ∃ message, up = keyUp message ∧ IsKey message ∧
    Whole up false
  buttons : s.buttons.1 = f.buttons
  position : s.position = (f.x, f.y)

omit [DecidableEq κ] in
theorem Mirrors.fresh : Mirrors key {} ({} : Screen κ) where
  keys _ h := nomatch h
  ups _ h := nomatch h
  buttons := rfl
  position := rfl

variable {key}

/-- One message on both sides. -/
theorem Mirrors.step {f : RfbInputFilter} {s : Screen κ} (h : Mirrors key f s) {message : Bytes}
    {display : Bool} (hm : Whole message display) :
    Mirrors key (f.track message) (s.receive key message) := by
  unfold RfbInputFilter.track Screen.receive
  by_cases hkey : byteAt message 0 = 4 ∨ byteAt message 0 = 255
  · rw [if_pos hkey, if_pos hkey]
    by_cases hdown : keyDown message = true
    · rw [if_pos hdown]
      refine ⟨fun k hk => ?_, fun up hup => ?_, h.buttons, h.position⟩
      · change Function.update s.keys (key (keyUp message)) (keyDown message) k = true at hk
        by_cases hsame : k = key (keyUp message)
        · exact ⟨keyUp message, Assoc.mem_keys_insert.mpr (.inl rfl), hsame.symm⟩
        · rw [Function.update_of_ne hsame] at hk
          obtain ⟨up, hup, rfl⟩ := h.keys k hk
          exact ⟨up, Assoc.mem_keys_insert.mpr (.inr hup), rfl⟩
      · rcases Assoc.mem_keys_insert.mp hup with rfl | hup
        · exact ⟨message, rfl, hkey, whole_keyUp hkey hm⟩
        · exact h.ups up hup
    · rw [if_neg hdown]
      refine ⟨fun k hk => ?_, fun up hup => ?_, h.buttons, h.position⟩
      · change Function.update s.keys (key (keyUp message)) (keyDown message) k = true at hk
        by_cases hsame : k = key (keyUp message)
        · rw [hsame, Function.update_self] at hk
          exact absurd hk hdown
        · -- Another key is remembered under another message.
          rw [Function.update_of_ne hsame] at hk
          obtain ⟨up, hup, rfl⟩ := h.keys k hk
          obtain ⟨e, he, rfl⟩ := List.mem_map.mp hup
          have hne : e.1 ≠ keyUp message := fun heq => hsame (heq ▸ rfl)
          exact ⟨e.1, List.mem_map.mpr ⟨e, Assoc.mem_erase.mpr ⟨he, hne⟩, rfl⟩, rfl⟩
      · obtain ⟨e, he, rfl⟩ := List.mem_map.mp hup
        exact h.ups e.1 (List.mem_map_of_mem (Assoc.mem_erase.mp he).1)
  · rw [if_neg hkey, if_neg hkey]
    split_ifs
    · exact ⟨h.keys, h.ups, rfl, rfl⟩
    · exact h

/-- Any messages on both sides. -/
theorem Mirrors.foldl {messages : List Bytes} {f : RfbInputFilter} {s : Screen κ}
    (h : Mirrors key f s) (hm : ∀ m ∈ messages, ∃ display, Whole m display) :
    Mirrors key (messages.foldl RfbInputFilter.track f) (messages.foldl (Screen.receive key) s) := by
  induction messages generalizing f s with
  | nil => exact h
  | cons m messages ih =>
    obtain ⟨display, hwhole⟩ := hm m List.mem_cons_self
    exact ih (h.step hwhole) fun m' hm' => hm m' (List.mem_cons_of_mem m hm')

omit [DecidableEq κ] in
theorem Mirrors.of_held {f g : RfbInputFilter} {s : Screen κ} (h : Mirrors key f s)
    (hheld : g.held = f.held) : Mirrors key g s := by
  simp only [RfbInputFilter.held, Prod.mk.injEq] at hheld
  obtain ⟨hkeys, hbuttons, hx, hy⟩ := hheld
  exact ⟨hkeys ▸ h.keys, hkeys ▸ h.ups, hbuttons ▸ h.buttons, by rw [hx, hy]; exact h.position⟩

/-! ### The release -/

/-- Key-up messages lift their keys and nothing else. -/
theorem foldl_receive_ups {ups : List Bytes}
    (h : ∀ up ∈ ups, ∃ message, up = keyUp message ∧ IsKey message ∧ Whole up false)
    (s : Screen κ) :
    (∀ k, (ups.foldl (Screen.receive key) s).keys k = true →
      s.keys k = true ∧ ∀ up ∈ ups, key up ≠ k) ∧
    (ups.foldl (Screen.receive key) s).buttons = s.buttons ∧
    (ups.foldl (Screen.receive key) s).position = s.position := by
  induction ups generalizing s with
  | nil => exact ⟨fun k hk => ⟨hk, by simp⟩, rfl, rfl⟩
  | cons up ups ih =>
    obtain ⟨message, rfl, hkey, -⟩ := h up List.mem_cons_self
    have hreceive : s.receive key (keyUp message) =
        { s with keys := Function.update s.keys (key (keyUp message)) false } := by
      have hkey' : byteAt (keyUp message) 0 = 4 ∨ byteAt (keyUp message) 0 = 255 := by
        rw [byteAt_keyUp_zero]
        exact hkey
      rw [Screen.receive, if_pos hkey', keyUp_keyUp, keyDown_keyUp]
    obtain ⟨hkeys, hbuttons, hposition⟩ := ih (fun up hup => h up (List.mem_cons_of_mem _ hup))
      (s.receive key (keyUp message))
    rw [List.foldl_cons]
    refine ⟨fun k hk => ?_, by rw [hbuttons, hreceive], by rw [hposition, hreceive]⟩
    obtain ⟨hk, hups⟩ := hkeys k hk
    rw [hreceive] at hk
    change Function.update s.keys (key (keyUp message)) false k = true at hk
    by_cases hsame : k = key (keyUp message)
    · rw [hsame, Function.update_self] at hk
      exact absurd hk Bool.false_ne_true
    · rw [Function.update_of_ne hsame] at hk
      exact ⟨hk, List.forall_mem_cons.mpr ⟨Ne.symm hsame, hups⟩⟩

theorem byteAt_pointerUp_zero (f : RfbInputFilter) : byteAt f.pointerUp 0 = 5 := rfl

theorem byteAt_pointerUp_one (f : RfbInputFilter) : byteAt f.pointerUp 1 = 0 := rfl

theorem length_pointerUp (f : RfbInputFilter) : f.pointerUp.length = 6 := rfl

/-- The pointer event without buttons. -/
theorem receive_pointerUp (f : RfbInputFilter) (s : Screen κ) :
    s.receive key f.pointerUp = { s with buttons := (0, 0), position := (f.x, f.y) } := by
  have hx : read16 f.pointerUp 2 = f.x := split16 f.x
  have hy : read16 f.pointerUp 4 = f.y := split16 f.y
  have hbuttons : pointerButtons f.pointerUp = (0, 0) := by
    simp [pointerButtons, byteAt_pointerUp_one]
  rw [Screen.receive, byteAt_pointerUp_zero, if_neg (by decide), if_pos rfl, hbuttons, hx, hy]

theorem whole_pointerUp (f : RfbInputFilter) : Whole f.pointerUp false := by
  have hd : declared f.pointerUp = .message 6 false := by
    rw [declared, byteAt_pointerUp_zero]
    simp [byteAt_pointerUp_one, length_pointerUp]
  rw [Whole, framing_of_declared hd, length_pointerUp, if_neg (by decide), if_neg (by decide)]

/-- What the server holds after the release. -/
theorem Mirrors.release {f : RfbInputFilter} {s : Screen κ} (h : Mirrors key f s) :
    let s' := f.releaseMessages.foldl (Screen.receive key) s
    (∀ k, s'.keys k = false) ∧ s'.position = s.position ∧
      s'.buttons = if f.buttons ≠ 0 then (0, 0) else s.buttons := by
  intro s'
  obtain ⟨hkeys, hbuttons, hposition⟩ := foldl_receive_ups h.ups s
  have hnone : ∀ k, ((f.heldKeys.map Prod.fst).foldl (Screen.receive key) s).keys k = false := by
    intro k
    refine Bool.eq_false_iff.mpr fun hk => ?_
    obtain ⟨hheld, hups⟩ := hkeys k hk
    obtain ⟨up, hup, heq⟩ := h.keys k hheld
    exact hups up hup heq
  have hs' : s' = if f.buttons ≠ 0 then
      ((f.heldKeys.map Prod.fst).foldl (Screen.receive key) s).receive key f.pointerUp
      else (f.heldKeys.map Prod.fst).foldl (Screen.receive key) s := by
    show f.releaseMessages.foldl (Screen.receive key) s = _
    rw [RfbInputFilter.releaseMessages, List.foldl_append]
    split_ifs <;> rfl
  rw [hs']
  split_ifs
  · rw [receive_pointerUp]
    exact ⟨hnone, h.position.symm, rfl⟩
  · exact ⟨hnone, hposition, hbuttons⟩

/-! ### Any run -/

/-- The last pointer event of some messages. -/
def lastPointer (messages : List Bytes) : Option Bytes :=
  (messages.filter fun m => byteAt m 0 = 5).getLast?

/-- The buttons are those of the last pointer event. -/
theorem foldl_receive_buttons (messages : List Bytes) (s : Screen κ) :
    (messages.foldl (Screen.receive key) s).buttons =
      ((lastPointer messages).map pointerButtons).getD s.buttons := by
  induction messages using List.reverseRecOn with
  | nil => rfl
  | append_singleton messages m ih =>
    rw [List.foldl_append, List.foldl_cons, List.foldl_nil, lastPointer, List.filter_append,
      List.filter_cons, List.filter_nil]
    by_cases hkey : byteAt m 0 = 4 ∨ byteAt m 0 = 255
    · have hpointer : ¬byteAt m 0 = 5 := by rcases hkey with h | h <;> rw [h] <;> decide
      rw [Screen.receive, if_pos hkey]
      simpa [hpointer, lastPointer] using ih
    · by_cases hpointer : byteAt m 0 = 5
      · rw [Screen.receive, if_neg hkey, if_pos hpointer]
        simp [hpointer]
      · rw [Screen.receive, if_neg hkey, if_neg hpointer]
        simpa [hpointer, lastPointer] using ih

/-- A pointer event that holds buttons of the extended byte only. -/
def ExtraOnly (message : Bytes) : Prop :=
  byteAt message 1 &&& 0x7f = 0 ∧ byteAt message 1 &&& 0x80 ≠ 0 ∧ byteAt message 6 ≠ 0

theorem pointerButtons_eq_zero_iff {message : Bytes} (h : byteAt message 1 &&& 0x7f = 0) :
    pointerButtons message = (0, 0) ↔ ¬ExtraOnly message := by
  simp only [pointerButtons, ExtraOnly, h, Prod.mk.injEq, true_and]
  split_ifs with hmark <;> simp [hmark]

variable (key) in
/-- Nothing is down on the server after `release`, and the pointer is where it
was. -/
def Lifted (out release : Bytes) : Prop :=
  (∀ k, (Screen.after key (out ++ release)).keys k = false) ∧
    (Screen.after key (out ++ release)).buttons = (0, 0) ∧
    (Screen.after key (out ++ release)).position = (Screen.after key out).position

/-- The messages a run forwarded, on both sides, before and after the
release. -/
theorem run_mirrors {pushes : List (Bytes × Bool)} {out : Bytes} {f : RfbInputFilter}
    (h : RfbInputFilter.run {} pushes = some (out, f)) :
    Mirrors key f (Screen.after key out) ∧
      Screen.after key (out ++ f.release.1) =
        f.releaseMessages.foldl (Screen.receive key) (Screen.after key out) := by
  obtain ⟨messages, hwhole, hdrop, hheld⟩ := RfbInputFilter.run_messages .fresh h
  change out.drop 14 = messages.flatten at hdrop
  have hafter : Screen.after key out = messages.foldl (Screen.receive key) {} := by
    rw [Screen.after, hdrop, parse_flatten_whole hwhole]
  have hmirrors : Mirrors key f (Screen.after key out) := by
    rw [hafter]
    exact ((Mirrors.fresh key).foldl hwhole).of_held hheld
  refine ⟨hmirrors, ?_⟩
  have hrelease : ∀ m ∈ f.releaseMessages, ∃ display, Whole m display := by
    intro m hm
    rcases List.mem_append.mp hm with hm | hm
    · obtain ⟨-, -, -, hup⟩ := hmirrors.ups m hm
      exact ⟨false, hup⟩
    · split_ifs at hm
      · obtain rfl := List.mem_singleton.mp hm
        exact ⟨false, whole_pointerUp f⟩
      · cases hm
  have hall : (out ++ f.release.1).drop 14 = (messages ++ f.releaseMessages).flatten := by
    rw [List.drop_append, hdrop, RfbInputFilter.release_fst, List.flatten_append]
    congr 1
    rcases Nat.le_total 14 out.length with hle | hle
    · rw [Nat.sub_eq_zero_of_le hle, List.drop_zero]
    · -- Nothing was forwarded yet, so nothing is held.
      have hnone : messages = [] := by
        rw [List.drop_eq_nil_of_le hle] at hdrop
        refine List.eq_nil_iff_forall_not_mem.mpr fun m hm => ?_
        obtain ⟨display, hm'⟩ := hwhole m hm
        exact hm'.ne_nil (List.flatten_eq_nil_iff.mp hdrop.symm m hm)
      rw [hnone] at hheld
      simp only [List.foldl_nil, RfbInputFilter.held, Prod.mk.injEq] at hheld
      simp [RfbInputFilter.releaseMessages, hheld]
  have hwhole' : ∀ m ∈ messages ++ f.releaseMessages, ∃ display, Whole m display := fun m hm =>
    (List.mem_append.mp hm).elim (hwhole m) (hrelease m)
  rw [Screen.after, hall, parse_flatten_whole hwhole', List.foldl_append, hafter]

variable (key) in
/-- **The release lifts everything that is held**, unless the last pointer
event held buttons of the extended byte only. -/
theorem release_lifts_iff (pushes : List (Bytes × Bool)) {out : Bytes} {f : RfbInputFilter}
    (h : RfbInputFilter.run {} pushes = some (out, f)) :
    Lifted key out f.release.1 ↔
      ∀ m, lastPointer ((parse (out.drop 14)).messages.map Prod.fst) = some m → ¬ExtraOnly m := by
  have hrun : Mirrors key f (Screen.after key out) ∧ _ := run_mirrors h
  obtain ⟨hmirrors, hafter⟩ := hrun
  obtain ⟨hkeys, hposition, hbuttons⟩ := hmirrors.release
  have hlast : (Screen.after key out).buttons =
      ((lastPointer ((parse (out.drop 14)).messages.map Prod.fst)).map pointerButtons).getD
        (0, 0) := foldl_receive_buttons _ _
  have hlow := hmirrors.buttons
  rw [hlast] at hlow
  rw [Lifted, hafter, hbuttons, hlast, hposition]
  clear hlast
  generalize lastPointer ((parse (out.drop 14)).messages.map Prod.fst) = last at hlow ⊢
  rcases last with - | m
  · refine iff_of_true ⟨hkeys, ?_, rfl⟩ fun m hm => nomatch hm
    split_ifs <;> rfl
  · change byteAt m 1 &&& 0x7f = f.buttons at hlow
    have hall : (∀ m', some m = some m' → ¬ExtraOnly m') ↔ ¬ExtraOnly m :=
      ⟨fun h => h m rfl, fun h m' hm => Option.some.inj hm ▸ h⟩
    rw [hall]
    split_ifs with hheld
    · exact iff_of_true ⟨hkeys, rfl, rfl⟩ fun hextra => hheld (hlow ▸ hextra.1)
    · rw [not_not] at hheld
      rw [← pointerButtons_eq_zero_iff (hlow.trans hheld)]
      exact ⟨fun h => h.2.1, fun h => ⟨hkeys, h, rfl⟩⟩

/-- The version and the shared flag, as the viewer sends them. -/
def handshake : Bytes := lit "RFB 003.008\n" ++ [1, 1]

/-- A key and the first button held down, in two chunks. -/
theorem release_lifts_key_and_button :
    let out := handshake ++ [4, 1, 0, 0, 0, 0, 0, 0x61, 5, 1, 0, 16, 0, 32]
    Lifted id out [4, 0, 0, 0, 0, 0, 0, 0x61, 5, 0, 0, 16, 0, 32] ↔
      ∀ m, lastPointer ((parse (out.drop 14)).messages.map Prod.fst) = some m → ¬ExtraOnly m := by
  intro out
  have hrun : RfbInputFilter.run {}
      [(handshake ++ [4, 1, 0], true), ([0, 0, 0, 0, 0x61, 5, 1, 0, 16, 0, 32], true)] =
        some (out, { handshakeRemaining := 0, heldKeys := [([4, 0, 0, 0, 0, 0, 0, 0x61], ())],
                     buttons := 1, x := 16, y := 32 }) := by
    decide +kernel
  exact release_lifts_iff id _ hrun

/-- **A button of the extended byte stays down**: nothing is sent to lift it. -/
theorem release_leaves_extra_button :
    ¬∀ (pushes : List (Bytes × Bool)) (out : Bytes) (f : RfbInputFilter),
      RfbInputFilter.run {} pushes = some (out, f) → Lifted id out f.release.1 := by
  intro h
  have hrun : RfbInputFilter.run {} [(handshake ++ [5, 0x80, 0, 16, 0, 32, 1], true)] =
      some (handshake ++ [5, 0x80, 0, 16, 0, 32, 1],
        { handshakeRemaining := 0, x := 16, y := 32 }) := by
    decide +kernel
  have hbuttons : (Screen.after id (handshake ++ [5, 0x80, 0, 16, 0, 32, 1] ++
      ({ handshakeRemaining := 0, x := 16, y := 32 } : RfbInputFilter).release.1)).buttons =
        (0, 1) := by
    decide +kernel
  have hzero := (h _ _ _ hrun).2.1
  rw [hbuttons] at hzero
  exact absurd hzero (by decide)

end UAgent
