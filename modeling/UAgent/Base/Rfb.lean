/-
UAgent/Base/Rfb.lean

The messages a client of the RFB protocol sends, by their bytes.

A message says by its type, and by counts in its first bytes, how long it is.
`ClientMessage` lists them with the lengths the protocol gives them; nothing is
decoded.  `Reads` is a byte stream as such messages one after another, and the
bytes behind them at which no message is complete.  Every stream has a reading
(`exists_reads`).
-/
import UAgent.Base.Bytes
import Mathlib.Data.List.Induction

namespace Rfb

open Bytes

/-- The client messages.  The clipboard has a second form whose length is
negative, the pointer event one with a second byte of buttons. -/
inductive ClientMessage : List UInt8 → Prop
  | setPixelFormat {rest} : rest.length = 19 → ClientMessage (0 :: rest)
  | setEncodings {pad hi lo encodings} : encodings.length = 4 * bigEndian [hi, lo] →
      ClientMessage (2 :: pad :: hi :: lo :: encodings)
  | updateRequest {rest} : rest.length = 9 → ClientMessage (3 :: rest)
  | keyEvent {rest} : rest.length = 7 → ClientMessage (4 :: rest)
  | pointerEvent {buttons rest} : buttons.toNat < 128 → rest.length = 4 →
      ClientMessage (5 :: buttons :: rest)
  | extendedPointerEvent {buttons rest} : 128 ≤ buttons.toNat → rest.length = 5 →
      ClientMessage (5 :: buttons :: rest)
  | cutText {p q r a b c d text} : bigEndian [a, b, c, d] < 2 ^ 31 →
      text.length = bigEndian [a, b, c, d] →
      ClientMessage (6 :: p :: q :: r :: a :: b :: c :: d :: text)
  | extendedCutText {p q r a b c d data} : 2 ^ 31 ≤ bigEndian [a, b, c, d] →
      data.length = 2 ^ 32 - bigEndian [a, b, c, d] →
      ClientMessage (6 :: p :: q :: r :: a :: b :: c :: d :: data)
  | continuousUpdates {rest} : rest.length = 9 → ClientMessage (150 :: rest)
  | fence {flags count payload} : flags.length = 7 → payload.length = UInt8.toNat count →
      ClientMessage (248 :: (flags ++ count :: payload))
  | power {rest} : rest.length = 3 → ClientMessage (250 :: rest)
  | setDesktopSize {size screens pad layout} : size.length = 5 →
      layout.length = 16 * UInt8.toNat screens →
      ClientMessage (251 :: (size ++ screens :: pad :: layout))
  | qemuKeyEvent {rest} : rest.length = 10 → ClientMessage (255 :: 0 :: rest)
  | qemuAudio {hi lo} : bigEndian [hi, lo] ≠ 2 → ClientMessage [255, 1, hi, lo]
  | qemuAudioFormat {rest} : rest.length = 6 → ClientMessage (255 :: 1 :: 0 :: 2 :: rest)

/-- No message is shorter than four bytes. -/
theorem ClientMessage.four_le {message : List UInt8} (h : ClientMessage message) :
    4 ≤ message.length := by
  cases h
  all_goals
    simp only [List.length_cons, List.length_append, List.length_nil]
    omega

/-- A stream read as messages. -/
structure Reads (stream : List UInt8) (messages : List (List UInt8)) (rest : List UInt8) :
    Prop where
  flatten : messages.flatten ++ rest = stream
  message : ∀ message ∈ messages, ClientMessage message
  last : ∀ message, ClientMessage message → ¬message <+: rest

variable {stream message rest : List UInt8} {messages : List (List UInt8)}

theorem Reads.nil_iff : Reads stream [] rest ↔
    rest = stream ∧ ∀ message, ClientMessage message → ¬message <+: rest :=
  ⟨fun h => ⟨h.flatten, h.last⟩, fun h => ⟨h.1, fun _ hm => absurd hm List.not_mem_nil, h.2⟩⟩

theorem Reads.cons (hmessage : ClientMessage message) (h : Reads stream messages rest) :
    Reads (message ++ stream) (message :: messages) rest where
  flatten := by rw [List.flatten_cons, List.append_assoc, h.flatten]
  message := fun m hm => (List.mem_cons.mp hm).elim (fun heq => heq ▸ hmessage) (h.message m)
  last := h.last

theorem Reads.tail (h : Reads stream (message :: messages) rest) :
    Reads (messages.flatten ++ rest) messages rest :=
  ⟨rfl, fun m hm => h.message m (List.mem_cons_of_mem message hm), h.last⟩

/-- **Every stream has a reading.** -/
theorem exists_reads (stream : List UInt8) : ∃ messages rest, Reads stream messages rest := by
  induction hn : stream.length using Nat.strongRecOn generalizing stream with
  | ind n ih =>
    subst hn
    by_cases hfirst : ∃ message, ClientMessage message ∧ message <+: stream
    · obtain ⟨message, hmessage, stream, rfl⟩ := hfirst
      have hpos := hmessage.four_le
      obtain ⟨messages, rest, h⟩ := ih stream.length
        (by rw [List.length_append]; omega) stream rfl
      exact ⟨message :: messages, rest, h.cons hmessage⟩
    · exact ⟨[], stream, Reads.nil_iff.mpr ⟨rfl, fun message hmessage hprefix =>
        hfirst ⟨message, hmessage, hprefix⟩⟩⟩

end Rfb
