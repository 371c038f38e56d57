/-
UAgent/Ui/InputDecoder.lean

The bytes of a terminal (`TerminalInputDecoder`, src/ui/input_decoder.cc):
text, escape sequences, bracketed pastes and Escape itself.

What the loop of `Next` decides about the pending bytes outside a paste is a
function of these bytes, `nextVerdict`.  The clock is left out: no escape delay
expires, so Escape followed by nothing waits and no Meta key comes late.
-/
import UAgent.Core.Strings

namespace UAgent

open Bytes

def kPasteStart : Bytes := 0x1b :: lit "[200~"
def kPasteEnd : Bytes := 0x1b :: lit "[201~"
def kInputBufferBytes : Nat := 64 * 1024
def kInputPasteBytes : Nat := kInputBufferBytes
def kInputSequenceBytes : Nat := 64
def kInputStringSequenceBytes : Nat := 4096

inductive TerminalInputTokenKind
  | text
  | sequence
  | paste
  | escape
deriving DecidableEq

structure TerminalInputToken where
  kind : TerminalInputTokenKind
  text : Bytes := []
  overflow : Bool := false
deriving DecidableEq

/-! ### What the pending bytes are -/

/-- The final byte of a CSI. -/
def csiFinal (byte : UInt8) : Bool := 0x40 ≤ byte && byte ≤ 0x7e

/-- `CompleteCsiBytes`: a final byte past the bound is none. -/
def completeCsiBytes (pending : Bytes) (at_ : Nat) : Nat :=
  if pending.length < at_ + 3 ∨ pending[at_]? ≠ some 0x1b ∨ pending[at_ + 1]? ≠ some (ch '[') then 0
  else
    match ((pending.take (at_ + kInputSequenceBytes)).drop (at_ + 2)).findIdx? csiFinal with
    | some i => at_ + 2 + i + 1
    | none => 0

/-- A number of bytes once they have arrived, and 0 before. -/
def arrived (pending : Bytes) (bytes : Nat) : Nat := if bytes ≤ pending.length then bytes else 0

/-- Escape and a UTF-8 character, by its lead byte. -/
def metaCharacterBytes (lead : UInt8) : Nat :=
  if 0xf0 ≤ lead then 5 else if 0xe0 ≤ lead then 4 else 3

/-- Escape and a key that is a sequence itself, by its third byte. -/
def metaSequenceBytes (pending : Bytes) : Option Nat :=
  match pending[2]? with
  | none => some 0
  | some third =>
    if third = ch 'O' then some (arrived pending 4)
    else if third ≠ ch '[' then none
    else if 0 < completeCsiBytes pending 1 then some (completeCsiBytes pending 1)
    else some (if kInputSequenceBytes < pending.length then kInputSequenceBytes + 1 else 0)

/-- `MetaKeyBytes`: none where the source says `npos`, and 0 while the key is
still arriving. -/
def metaKeyBytes (pending : Bytes) : Option Nat :=
  match pending with
  | front :: key :: _ =>
    if front ≠ 0x1b then none
    else if 0xc0 ≤ key then some (arrived pending (metaCharacterBytes key))
    else if key ≠ 0x1b then none
    else metaSequenceBytes pending
  | _ => none

/-- The second byte of a string sequence. -/
def stringIntroducer (byte : UInt8) : Bool :=
  byte = ch ']' || byte = ch 'P' || byte = ch 'X' || byte = ch '^' || byte = ch '_'

/-- `StartsStringSequence`. -/
def startsStringSequence : Bytes → Bool
  | front :: introducer :: _ => front = 0x1b && stringIntroducer introducer
  | _ => false

/-- The bytes up to a terminator, BEL or ST, and with it. -/
def terminated : Bytes → Option Nat
  | [] => none
  | byte :: rest =>
    if byte = 0x07 then some 1
    else if byte = 0x1b ∧ rest.head? = some (ch '\\') then some 2
    else (terminated rest).map (· + 1)

/-- `CompleteStringSequenceBytes`. -/
def completeStringSequenceBytes (pending : Bytes) : Nat :=
  match terminated (pending.drop 2) with
  | some bytes => bytes + 2
  | none => 0

/-- `StartsX10Mouse`. -/
def startsX10Mouse (pending : Bytes) : Bool := [0x1b, ch '[', ch 'M'].isPrefixOf pending

/-! ### The loop of `Next` -/

/-- What a round of the loop does outside a paste. -/
inductive InputVerdict
  | wait
  /-- the first bytes are a token -/
  | token (kind : TerminalInputTokenKind) (bytes : Nat)
  | startPaste
  /-- the first bytes are dropped -/
  | drop (bytes : Nat)
deriving DecidableEq

/-- An unterminated string sequence is dropped with everything that is
pending, once that is past the bound. -/
def stringVerdict (pending : Bytes) : InputVerdict :=
  if completeStringSequenceBytes pending = 0 then
    if pending.length < kInputStringSequenceBytes then .wait else .drop pending.length
  else .token .sequence (completeStringSequenceBytes pending)

/-- A CSI, an SS3 or a pair. -/
def sequenceVerdict (pending : Bytes) (key : UInt8) : InputVerdict :=
  if startsX10Mouse pending then if pending.length < 6 then .wait else .token .sequence 6
  else if key = ch '[' then
    if 0 < completeCsiBytes pending 0 then .token .sequence (completeCsiBytes pending 0)
    else if pending.length < kInputSequenceBytes then .wait
    else .token .sequence kInputSequenceBytes
  else if key = ch 'O' then if pending.length < 3 then .wait else .token .sequence 3
  else .token .sequence 2

/-- What is no Meta key, by its second byte. -/
def keyVerdict (pending : Bytes) (key : UInt8) : InputVerdict :=
  if key = 0x1b then .token .escape 1
  else if startsStringSequence pending then stringVerdict pending
  else sequenceVerdict pending key

/-- What starts with Escape and is no paste. -/
def escapeVerdict (pending : Bytes) (key : UInt8) : InputVerdict :=
  match metaKeyBytes pending with
  | some 0 => .wait
  | some bytes => .token .sequence bytes
  | none => keyVerdict pending key

def nextVerdict (pending : Bytes) : InputVerdict :=
  match pending with
  | [] => .wait
  | [front] => if front ≠ 0x1b then .token .text 1 else .wait
  | front :: key :: _ =>
    if front ≠ 0x1b then .token .text 1
    else if kPasteStart.isPrefixOf pending then .startPaste
    else escapeVerdict pending key

/-- The token of `bytes`: Escape has no text. -/
def tokenOf (kind : TerminalInputTokenKind) (bytes : Bytes) : TerminalInputToken :=
  ⟨kind, if kind = .escape then [] else bytes, false⟩

/-- The text of a paste, `TakePaste`. -/
def pasteToken (paste : Bytes) (overflow : Bool) : TerminalInputToken :=
  let text := replaceAll (replaceAll paste (lit "\r\n") (lit "\n")) (lit "\r") (lit "\n")
  ⟨.paste, text.filter (· ≠ 0), overflow⟩

/-! ### The decoder -/

structure TerminalInputDecoder where
  pending : Bytes := []
  paste : Bytes := []
  pasting : Bool := false
  pasteReady : Bool := false
  pasteOverflow : Bool := false
  pendingOverflow : Bool := false

namespace TerminalInputDecoder

/-- `Consume`. -/
def consume (d : TerminalInputDecoder) (count : Nat) : TerminalInputDecoder :=
  { d with pending := d.pending.drop count }

/-- `StartPaste`. -/
def startPaste (d : TerminalInputDecoder) : TerminalInputDecoder :=
  { d.consume kPasteStart.length with pasting := true, paste := [], pasteOverflow := false }

/-- `AppendPasteByte`. -/
def appendPasteByte (d : TerminalInputDecoder) (byte : UInt8) : TerminalInputDecoder :=
  if d.paste.length < kInputPasteBytes then { d with paste := d.paste ++ [byte] }
  else { d with pasteOverflow := true }

/-- `TakePaste`. -/
def takePaste (d : TerminalInputDecoder) : TerminalInputDecoder × TerminalInputToken :=
  ({ d with paste := [], pasteReady := false, pasteOverflow := false },
    pasteToken d.paste d.pasteOverflow)

/-- The inner loop of `FeedPaste`: what cannot be the paste's end is its
text.  The bytes are those that are pending. -/
def spill (d : TerminalInputDecoder) : Bytes → TerminalInputDecoder
  | [] => { d with pending := [] }
  | byte :: rest =>
    if (byte :: rest).isPrefixOf kPasteEnd then { d with pending := byte :: rest }
    else (d.appendPasteByte byte).spill rest

/-- `FeedPaste`, with the bytes that are left. -/
def feedPaste (d : TerminalInputDecoder) (data : Bytes) : TerminalInputDecoder × Bytes :=
  if kPasteEnd.isPrefixOf d.pending then
    ({ d.consume kPasteEnd.length with pasting := false, pasteReady := true }, data)
  else
    match data with
    | [] => (d, [])
    | byte :: data => (d.spill (d.pending ++ [byte])).feedPaste data

/-- The end of a round of `Feed`: the bytes wait with the others, or there are
too many of them. -/
def feedPending (d : TerminalInputDecoder) (data : Bytes) : TerminalInputDecoder :=
  if kInputBufferBytes - d.pending.length < data.length then
    { d with pending := [], pendingOverflow := true }
  else { d with pending := d.pending ++ data }

/-- The rounds of `Feed` from within a paste.  One that has ended is ready, so
that what comes after it waits. -/
def feedPasting (d : TerminalInputDecoder) (data : Bytes) : TerminalInputDecoder :=
  if data = [] then d
  else
    let (d, data) := d.feedPaste data
    if d.pasting ∨ data = [] then d else d.feedPending data

/-- `Feed`. -/
def feed (d : TerminalInputDecoder) (data : Bytes) : TerminalInputDecoder :=
  if data = [] ∨ d.pendingOverflow then d
  else if d.pasting then d.feedPasting data
  else if !d.pasteReady && d.pending.isPrefixOf kPasteStart then
    let count := min data.length (kPasteStart.length - d.pending.length)
    let d := { d with pending := d.pending ++ data.take count }
    let data := data.drop count
    if kPasteStart.isPrefixOf d.pending then d.startPaste.feedPasting data
    else if d.pending.isPrefixOf kPasteStart ∨ data = [] then d
    else d.feedPending data
  else d.feedPending data

/-- The loop of `Next`.  A round that goes on has taken a byte, so that there
are no more of them than there are bytes pending. -/
def nextLoop (d : TerminalInputDecoder) : Nat → TerminalInputDecoder × Option TerminalInputToken
  | 0 => (d, none)
  | rounds + 1 =>
    match d.pending with
    | [] => (d, none)
    | front :: rest =>
      if d.pasting then
        if kPasteEnd.isPrefixOf d.pending then
          let (d, token) := { d.consume kPasteEnd.length with pasting := false }.takePaste
          (d, some token)
        else if d.pending.isPrefixOf kPasteEnd then (d, none)
        else ({ d with pending := rest }.appendPasteByte front).nextLoop rounds
      else
        match nextVerdict d.pending with
        | .wait => (d, none)
        | .token kind bytes => (d.consume bytes, some (tokenOf kind (d.pending.take bytes)))
        | .startPaste => d.startPaste.nextLoop rounds
        | .drop bytes => (d.consume bytes).nextLoop rounds

/-- `Next`. -/
def next (d : TerminalInputDecoder) : TerminalInputDecoder × Option TerminalInputToken :=
  if d.pasteReady then
    let (d, token) := { d with pendingOverflow := false }.takePaste
    (d, some token)
  else if d.pendingOverflow then ({ d with pendingOverflow := false }, none)
  else d.nextLoop d.pending.length

/-- `Next` until it has no token.  Each but that of a paste that was ready
takes a byte. -/
def takeReady (d : TerminalInputDecoder) : Nat → TerminalInputDecoder × List TerminalInputToken
  | 0 => (d, [])
  | rounds + 1 =>
    match d.next with
    | (d, none) => (d, [])
    | (d, some token) =>
      let (d, tokens) := d.takeReady rounds
      (d, token :: tokens)

/-- All tokens that are ready. -/
def takeAll (d : TerminalInputDecoder) : TerminalInputDecoder × List TerminalInputToken :=
  d.takeReady (d.pending.length + 2)

/-- The tokens of the reads, all that are ready being taken after each. -/
def decode (d : TerminalInputDecoder) : List Bytes → List TerminalInputToken
  | [] => []
  | read :: reads =>
    let (d, tokens) := (d.feed read).takeAll
    tokens ++ d.decode reads

/-- The buffer overflows in none of the reads. -/
def Fits (d : TerminalInputDecoder) : List Bytes → Prop
  | [] => True
  | read :: reads => (d.feed read).pendingOverflow = false ∧ (d.feed read).takeAll.1.Fits reads

end TerminalInputDecoder

end UAgent
