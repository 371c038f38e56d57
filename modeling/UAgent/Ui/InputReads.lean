/-
UAgent/Ui/InputReads.lean

The decoder of a terminal's bytes as a recogniser (`Feed` and `Next`,
src/ui/input_decoder.cc).  `Next` takes one step after another up to a token
(`comes_nextLoop`), and what `Feed` does before it these steps would do as
well (`fed_feed`).

Main result: `decode_eq_reads`.  What the decoder gives of some reads is what
the recogniser gives of them, as long as the buffer does not overflow;
`fits_of_short` says that short reads see to that.
-/
import UAgent.Base.Incremental
import UAgent.Ui.InputVerdicts

namespace UAgent

open Bytes

/-! ### The recogniser -/

/-- What is being read: keys and sequences, or a paste with its text so far. -/
inductive InputMode
  | plain
  | paste (text : Bytes) (overflow : Bool)

/-- A paste goes on with a byte. -/
def pasteMode (text : Bytes) (overflow : Bool) (byte : UInt8) : InputMode :=
  if text.length < kInputPasteBytes then .paste (text ++ [byte]) overflow else .paste text true

def pasteStep (text : Bytes) (overflow : Bool) (pending : Bytes) :
    Option (List TerminalInputToken × InputMode × Bytes) :=
  if kPasteEnd.isPrefixOf pending then
    some ([pasteToken text overflow], .plain, pending.drop kPasteEnd.length)
  else
    match pending with
    | [] => none
    | byte :: rest =>
      if (byte :: rest).isPrefixOf kPasteEnd then none
      else some ([], pasteMode text overflow byte, rest)

def plainStep (verdict : Bytes → InputVerdict) (pending : Bytes) :
    Option (List TerminalInputToken × InputMode × Bytes) :=
  match verdict pending with
  | .wait => none
  | .token kind bytes => some ([tokenOf kind (pending.take bytes)], .plain, pending.drop bytes)
  | .startPaste => some ([], .paste [] false, pending.drop kPasteStart.length)
  | .drop bytes => some ([], .plain, pending.drop bytes)

def inputStep (verdict : Bytes → InputVerdict) : InputMode → Bytes →
    Option (List TerminalInputToken × InputMode × Bytes)
  | .plain, pending => plainStep verdict pending
  | .paste text overflow, pending => pasteStep text overflow pending

section Steps

variable {verdict : Bytes → InputVerdict} {text p r : Bytes} {overflow : Bool}
  {o : List TerminalInputToken} {s s' : InputMode}

/-- What a step in plain input takes. -/
theorem plainStep_eq_some (h : plainStep verdict p = some (o, s', r)) :
    verdict p ≠ .wait ∧ r = p.drop (verdict p).bytes := by
  rw [plainStep] at h
  cases hv : verdict p with
  | wait => simp [hv] at h
  | token kind bytes =>
    simp only [hv, Option.some_inj, Prod.mk.injEq] at h
    exact ⟨InputVerdict.noConfusion, h.2.2.symm⟩
  | startPaste =>
    simp only [hv, Option.some_inj, Prod.mk.injEq] at h
    exact ⟨InputVerdict.noConfusion, h.2.2.symm⟩
  | drop bytes =>
    simp only [hv, Option.some_inj, Prod.mk.injEq] at h
    exact ⟨InputVerdict.noConfusion, h.2.2.symm⟩

theorem pasteStep_shrinks (h : pasteStep text overflow p = some (o, s', r)) :
    r.length < p.length := by
  unfold pasteStep at h
  split_ifs at h with hend
  · have hle := (List.isPrefixOf_iff_prefix.mp hend).length_le
    have hsix : kPasteEnd.length = 6 := by decide
    simp only [Option.some_inj, Prod.mk.injEq] at h
    rw [← h.2.2, List.length_drop]
    omega
  · split at h
    · cases h
    · split_ifs at h
      simp only [Option.some_inj, Prod.mk.injEq] at h
      rw [← h.2.2, List.length_cons]
      exact Nat.lt_succ_self _

theorem inputStep_shrinks (htakes : Takes verdict) (h : inputStep verdict s p = some (o, s', r)) :
    r.length < p.length := by
  cases s with
  | plain =>
    obtain ⟨hwait, rfl⟩ := plainStep_eq_some h
    obtain ⟨hpos, hle⟩ := htakes p hwait
    rw [List.length_drop]
    omega
  | paste text overflow => exact pasteStep_shrinks h

end Steps

/-- The recogniser of a verdict on plain input. -/
def inputRecogniser (verdict : Bytes → InputVerdict) (htakes : Takes verdict) :
    Recogniser InputMode UInt8 TerminalInputToken where
  step := inputStep verdict
  shrinks := inputStep_shrinks htakes

/-- What `Next` recognises. -/
def nextRecogniser : Recogniser InputMode UInt8 TerminalInputToken :=
  inputRecogniser nextVerdict nextVerdict_takes

/-- What it would recognise if string sequences were cut at their bound. -/
def boundedRecogniser : Recogniser InputMode UInt8 TerminalInputToken :=
  inputRecogniser boundedVerdict boundedVerdict_takes

theorem held_of_pasteStep_none {text p : Bytes} {overflow : Bool}
    (h : pasteStep text overflow p = none) : p.isPrefixOf kPasteEnd = true := by
  unfold pasteStep at h
  split_ifs at h
  cases p with
  | nil => rfl
  | cons byte rest =>
    dsimp only at h
    split_ifs at h with hheld
    exact hheld

theorem verdict_of_plainStep_none {verdict : Bytes → InputVerdict} {p : Bytes}
    (h : plainStep verdict p = none) : verdict p = .wait := by
  rw [plainStep] at h
  cases hverdict : verdict p with
  | wait => rfl
  | token kind bytes => simp [hverdict] at h
  | startPaste => simp [hverdict] at h
  | drop bytes => simp [hverdict] at h

/-- What waits is short. -/
theorem length_lt_of_step_none {s : InputMode} {p : Bytes} (h : nextRecogniser.step s p = none) :
    p.length < kInputStringSequenceBytes := by
  cases s with
  | plain => exact length_lt_of_wait (verdict_of_plainStep_none h)
  | paste text overflow =>
    have hheld := held_of_pasteStep_none h
    exact (List.isPrefixOf_iff_prefix.mp hheld).length_le.trans_lt (by decide)

namespace TerminalInputDecoder

/-! ### `Next` -/

/-- What the decoder is reading. -/
def mode (d : TerminalInputDecoder) : InputMode :=
  if d.pasting then .paste d.paste d.pasteOverflow else .plain

/-- What `Next` has come to. -/
structure Comes (d : TerminalInputDecoder)
    (out : TerminalInputDecoder × Option TerminalInputToken) : Prop where
  ready : out.1.pasteReady = false
  fits : out.1.pendingOverflow = false
  drain : nextRecogniser.drain d.mode d.pending =
    (out.2.toList ++ (nextRecogniser.drain out.1.mode out.1.pending).1,
      (nextRecogniser.drain out.1.mode out.1.pending).2)
  waits : out.2 = none → nextRecogniser.step out.1.mode out.1.pending = none
  shorter : out.2 ≠ none → out.1.pending.length < d.pending.length

section Next

variable {d d' : TerminalInputDecoder} {out : TerminalInputDecoder × Option TerminalInputToken}

theorem comes_of_wait (hready : d.pasteReady = false) (hfits : d.pendingOverflow = false)
    (h : nextRecogniser.step d.mode d.pending = none) : d.Comes (d, none) where
  ready := hready
  fits := hfits
  drain := rfl
  waits _ := h
  shorter h := absurd rfl h

theorem comes_of_token {token : TerminalInputToken} (hready : d'.pasteReady = false)
    (hfits : d'.pendingOverflow = false)
    (h : nextRecogniser.step d.mode d.pending = some ([token], d'.mode, d'.pending)) :
    d.Comes (d', some token) where
  ready := hready
  fits := hfits
  drain := Recogniser.drain_of_some h
  waits h := absurd h (by simp)
  shorter _ := nextRecogniser.shrinks h

/-- A round of the loop that goes on. -/
theorem Comes.round (hout : d'.Comes out)
    (h : nextRecogniser.step d.mode d.pending = some ([], d'.mode, d'.pending)) : d.Comes out where
  ready := hout.ready
  fits := hout.fits
  drain := (Recogniser.drain_of_some h).trans hout.drain
  waits := hout.waits
  shorter hsome := (hout.shorter hsome).trans (nextRecogniser.shrinks h)

theorem mode_of_pasting (h : d.pasting = true) : d.mode = .paste d.paste d.pasteOverflow := by
  rw [mode, if_pos h]

theorem mode_of_not_pasting (h : d.pasting = false) : d.mode = .plain := by
  rw [mode, h]
  rfl

theorem mode_appendPasteByte (h : d.pasting = true) (byte : UInt8) :
    (d.appendPasteByte byte).mode = pasteMode d.paste d.pasteOverflow byte := by
  rw [appendPasteByte, pasteMode]
  split_ifs <;> exact mode_of_pasting h

/-- A round outside a paste. -/
theorem step_plain (h : d.pasting = false) :
    nextRecogniser.step d.mode d.pending = plainStep nextVerdict d.pending := by
  rw [mode_of_not_pasting h]
  rfl

/-- A round within a paste. -/
theorem step_pasting (h : d.pasting = true) :
    nextRecogniser.step d.mode d.pending = pasteStep d.paste d.pasteOverflow d.pending := by
  rw [mode_of_pasting h]
  rfl

theorem mode_startPaste (d : TerminalInputDecoder) : d.startPaste.mode = .paste [] false := rfl

theorem length_lt_of_step {s : InputMode} {o : List TerminalInputToken} {r : Bytes}
    (h : nextRecogniser.step d.mode d.pending = some (o, s, r)) : r.length < d.pending.length :=
  nextRecogniser.shrinks h

section Round

variable {rounds : Nat} {front : UInt8} {rest : Bytes}
  (ih : ∀ d' : TerminalInputDecoder, d'.pending.length < d.pending.length → d'.pasteReady = false →
    d'.pendingOverflow = false → d'.Comes (d'.nextLoop rounds))

include ih

/-- A round within a paste. -/
theorem comes_round_pasting (hpasting : d.pasting = true) (hpending : d.pending = front :: rest)
    (hready : d.pasteReady = false) (hfits : d.pendingOverflow = false) :
    d.Comes (d.nextLoop (rounds + 1)) := by
  have hstep := step_pasting hpasting
  rw [nextLoop, hpending]
  dsimp only
  rw [if_pos hpasting]
  rw [hpending] at hstep
  by_cases hend : kPasteEnd.isPrefixOf (front :: rest) = true
  · rw [if_pos hend]
    refine comes_of_token rfl hfits ?_
    rw [hpending, hstep, pasteStep, if_pos hend]
    show _ = some ([pasteToken d.paste d.pasteOverflow], InputMode.plain, d.pending.drop _)
    rw [hpending]
  rw [if_neg hend]
  by_cases hwait : (front :: rest).isPrefixOf kPasteEnd = true
  · rw [if_pos hwait]
    refine comes_of_wait hready hfits ?_
    rw [hpending, hstep, pasteStep, if_neg hend]
    exact if_pos hwait
  · rw [if_neg hwait]
    have hleft : ({ d with pending := rest }.appendPasteByte front).pending = rest := by
      rw [appendPasteByte]
      split_ifs <;> rfl
    have hstep' : nextRecogniser.step d.mode d.pending =
        some ([], ({ d with pending := rest }.appendPasteByte front).mode,
          ({ d with pending := rest }.appendPasteByte front).pending) := by
      have hmode := @mode_appendPasteByte { d with pending := rest } hpasting front
      rw [hpending, hstep, pasteStep, if_neg hend, hmode, hleft]
      exact if_neg hwait
    refine Comes.round (ih _ (length_lt_of_step hstep') ?_ ?_) hstep'
    · rw [appendPasteByte]
      split_ifs <;> exact hready
    · rw [appendPasteByte]
      split_ifs <;> exact hfits

/-- A round outside a paste. -/
theorem comes_round_plain (hpasting : d.pasting = false) (hpending : d.pending = front :: rest)
    (hready : d.pasteReady = false) (hfits : d.pendingOverflow = false) :
    d.Comes (d.nextLoop (rounds + 1)) := by
  have hstep := step_plain hpasting
  have hplain (count : Nat) : (d.consume count).mode = .plain := mode_of_not_pasting hpasting
  rw [plainStep] at hstep
  rw [nextLoop]
  simp only [hpending, if_neg (Bool.eq_false_iff.mp hpasting)]
  rw [← hpending]
  cases hverdict : nextVerdict d.pending with
  | wait =>
    rw [hverdict] at hstep
    exact comes_of_wait hready hfits hstep
  | token kind bytes =>
    rw [hverdict] at hstep
    refine comes_of_token hready hfits ?_
    rw [hplain]
    exact hstep
  | startPaste =>
    rw [hverdict] at hstep
    have hstep' : nextRecogniser.step d.mode d.pending =
        some ([], d.startPaste.mode, d.startPaste.pending) := hstep
    exact Comes.round (ih _ (length_lt_of_step hstep') hready hfits) hstep'
  | drop bytes =>
    rw [hverdict] at hstep
    have hstep' : nextRecogniser.step d.mode d.pending =
        some ([], (d.consume bytes).mode, (d.consume bytes).pending) := by
      rw [hplain]
      exact hstep
    exact Comes.round (ih _ (length_lt_of_step hstep') hready hfits) hstep'

end Round

/-- **The loop of `Next`** takes the steps of the recogniser up to a token. -/
theorem comes_nextLoop {rounds : Nat} (hrounds : d.pending.length ≤ rounds)
    (hready : d.pasteReady = false) (hfits : d.pendingOverflow = false) :
    d.Comes (d.nextLoop rounds) := by
  have hempty {d : TerminalInputDecoder} (h : d.pending = []) :
      nextRecogniser.step d.mode d.pending = none := by
    rw [h]
    cases d.mode with
    | plain => rfl
    | paste text overflow => rfl
  induction rounds generalizing d with
  | zero =>
    have hnone := List.length_eq_zero_iff.mp (Nat.le_zero.mp hrounds)
    exact comes_of_wait hready hfits (hempty hnone)
  | succ rounds ih =>
    cases hpending : d.pending with
    | nil =>
      rw [nextLoop, hpending]
      exact comes_of_wait hready hfits (hempty hpending)
    | cons front rest =>
      have hrest (d' : TerminalInputDecoder) (hshorter : d'.pending.length < d.pending.length) :=
        @ih d' (Nat.le_of_lt_succ (hshorter.trans_le hrounds))
      cases hpasting : d.pasting with
      | true => exact comes_round_pasting hrest hpasting hpending hready hfits
      | false => exact comes_round_plain hrest hpasting hpending hready hfits

/-- What is ready before the pending bytes. -/
def readyTokens (d : TerminalInputDecoder) : List TerminalInputToken :=
  if d.pasteReady then [pasteToken d.paste d.pasteOverflow] else []

/-- The decoder has given all tokens that are ready. -/
structure Settled (d : TerminalInputDecoder) : Prop where
  ready : d.pasteReady = false
  fits : d.pendingOverflow = false
  waits : nextRecogniser.step d.mode d.pending = none

/-- What taking the ready tokens has come to. -/
structure Taken (d : TerminalInputDecoder)
    (out : TerminalInputDecoder × List TerminalInputToken) : Prop where
  settled : out.1.Settled
  tokens : out.2 = d.readyTokens ++ (nextRecogniser.drain d.mode d.pending).1
  left : (nextRecogniser.drain d.mode d.pending).2 = (out.1.mode, out.1.pending)

theorem Comes.none_taken (h : d.Comes (d', none)) (hready : d.pasteReady = false) :
    d.Taken (d', []) := by
  have hdrain := h.drain
  rw [Recogniser.drain_of_none (h.waits rfl)] at hdrain
  refine ⟨⟨h.ready, h.fits, h.waits rfl⟩, ?_, ?_⟩
  · rw [readyTokens, hready, hdrain]
    rfl
  · rw [hdrain]

theorem Comes.some_taken {token : TerminalInputToken} {tokens : List TerminalInputToken}
    {d₂ : TerminalInputDecoder} (h : d.Comes (d', some token)) (hready : d.pasteReady = false)
    (hrest : d'.Taken (d₂, tokens)) : d.Taken (d₂, token :: tokens) := by
  have htokens : tokens = (nextRecogniser.drain d'.mode d'.pending).1 := by
    have hall := hrest.tokens
    rw [readyTokens, h.ready] at hall
    exact hall
  refine ⟨hrest.settled, ?_, ?_⟩
  · rw [readyTokens, hready, h.drain, htokens]
    rfl
  · rw [h.drain]
    exact hrest.left

theorem taken_takeReady {rounds : Nat} (hrounds : d.pending.length < rounds)
    (hready : d.pasteReady = false) (hfits : d.pendingOverflow = false) :
    d.Taken (d.takeReady rounds) := by
  induction rounds generalizing d with
  | zero => exact absurd hrounds (Nat.not_lt_zero _)
  | succ rounds ih =>
    have hcomes : d.Comes d.next := by
      rw [next, hready, hfits]
      exact comes_nextLoop le_rfl hready hfits
    rw [takeReady]
    cases hout : d.next with
    | mk d' o =>
      rw [hout] at hcomes
      cases o with
      | none => exact hcomes.none_taken hready
      | some token =>
        have hshorter : d'.pending.length < d.pending.length := hcomes.shorter (by simp)
        exact hcomes.some_taken hready
          (ih (hshorter.trans_le (Nat.le_of_lt_succ hrounds)) hcomes.ready hcomes.fits)

/-- **Taking the ready tokens**: a paste that is ready, and what the recogniser
gives of the pending bytes. -/
theorem taken_takeAll (hpaste : d.pasteReady = true → d.pasting = false)
    (hfits : d.pendingOverflow = false) : d.Taken d.takeAll := by
  cases hready : d.pasteReady with
  | false => exact taken_takeReady (Nat.lt_add_of_pos_right Nat.two_pos) hready hfits
  | true =>
    have hpasting := hpaste hready
    have hnext : d.next = ({ d with pendingOverflow := false }.takePaste.1,
        some (pasteToken d.paste d.pasteOverflow)) := by
      rw [next, if_pos hready]
      rfl
    have hrest : { d with pendingOverflow := false }.takePaste.1.Taken
        ({ d with pendingOverflow := false }.takePaste.1.takeReady (d.pending.length + 1)) :=
      taken_takeReady (Nat.lt_succ_self _) rfl rfl
    have hmode : { d with pendingOverflow := false }.takePaste.1.mode = d.mode := by
      rw [mode_of_not_pasting hpasting]
      exact mode_of_not_pasting hpasting
    rw [takeAll, takeReady, hnext]
    refine ⟨hrest.settled, ?_, ?_⟩
    · have htokens := hrest.tokens
      rw [hmode] at htokens
      rw [readyTokens, if_pos hready]
      exact congrArg _ htokens
    · have hleft := hrest.left
      rw [hmode] at hleft
      exact hleft

end Next

/-! ### `Feed` -/

/-- What `Feed` has come to: what it did the steps of the recogniser would do
as well. -/
structure Fed (d : TerminalInputDecoder) (data : Bytes) (d' : TerminalInputDecoder) : Prop where
  paste : d'.pasteReady = true → d'.pasting = false
  drain : nextRecogniser.drain d.mode (d.pending ++ data) =
    (d'.readyTokens ++ (nextRecogniser.drain d'.mode d'.pending).1,
      (nextRecogniser.drain d'.mode d'.pending).2)

/-- What the bytes of a paste have come to that are not its end. -/
structure Spilled (d : TerminalInputDecoder) (l : Bytes) (d' : TerminalInputDecoder) : Prop where
  pasting : d'.pasting = true
  ready : d'.pasteReady = d.pasteReady
  fits : d'.pendingOverflow = d.pendingOverflow
  held : d'.pending.isPrefixOf kPasteEnd = true
  drain : ∀ more, nextRecogniser.drain d.mode (l ++ more) =
    nextRecogniser.drain d'.mode (d'.pending ++ more)

section Feed

variable {d : TerminalInputDecoder} {data : Bytes}

theorem spilled (hpasting : d.pasting = true) {l : Bytes} (hlen : l.length ≤ kPasteEnd.length) :
    d.Spilled l (d.spill l) := by
  induction l generalizing d with
  | nil => exact ⟨hpasting, rfl, rfl, rfl, fun _ => rfl⟩
  | cons byte rest ih =>
    rw [spill]
    by_cases hheld : (byte :: rest).isPrefixOf kPasteEnd = true
    · rw [if_pos hheld]
      exact ⟨hpasting, rfl, rfl, hheld, fun _ => rfl⟩
    · rw [if_neg hheld]
      have hpasting' : (d.appendPasteByte byte).pasting = true := by
        rw [appendPasteByte]
        split_ifs <;> exact hpasting
      have hspilled := ih hpasting' (Nat.le_of_succ_le hlen)
      refine ⟨hspilled.pasting, hspilled.ready.trans ?_, hspilled.fits.trans ?_, hspilled.held,
        fun more => ?_⟩
      · rw [appendPasteByte]
        split_ifs <;> rfl
      · rw [appendPasteByte]
        split_ifs <;> rfl
      · -- the bytes are no beginning of the end, whatever follows them
        have hend : ¬kPasteEnd.isPrefixOf (byte :: (rest ++ more)) = true := fun hend =>
          hheld (List.isPrefixOf_iff_prefix.mpr (List.prefix_of_prefix_length_le
            (List.prefix_append (byte :: rest) more) (List.isPrefixOf_iff_prefix.mp hend) hlen))
        have hwait : ¬(byte :: (rest ++ more)).isPrefixOf kPasteEnd = true := fun hwait =>
          hheld (List.isPrefixOf_iff_prefix.mpr ((List.prefix_append (byte :: rest) more).trans
            (List.isPrefixOf_iff_prefix.mp hwait)))
        have hstep : nextRecogniser.step d.mode (byte :: (rest ++ more)) =
            some ([], (d.appendPasteByte byte).mode, rest ++ more) := by
          rw [mode_of_pasting hpasting, mode_appendPasteByte hpasting]
          show pasteStep d.paste d.pasteOverflow (byte :: (rest ++ more)) = _
          rw [pasteStep, if_neg hend]
          exact if_neg hwait
        exact (Recogniser.drain_of_some hstep).trans (hspilled.drain more)

/-- What `FeedPaste` has come to: the paste goes on and the data is taken, or
the paste is ready. -/
structure PasteFed (d : TerminalInputDecoder) (data : Bytes) (out : TerminalInputDecoder × Bytes) :
    Prop where
  fits : out.1.pendingOverflow = false
  going : out.1.pasting = true → out.2 = [] ∧ out.1.pasteReady = false ∧
    nextRecogniser.drain d.mode (d.pending ++ data) =
      nextRecogniser.drain out.1.mode out.1.pending
  ended : out.1.pasting = false → out.1.pasteReady = true ∧ out.1.pending = [] ∧
    nextRecogniser.drain d.mode (d.pending ++ data) =
      (pasteToken out.1.paste out.1.pasteOverflow :: (nextRecogniser.drain .plain out.2).1,
        (nextRecogniser.drain .plain out.2).2)

theorem pasteFed_end (hpasting : d.pasting = true) (hfits : d.pendingOverflow = false)
    (hheld : d.pending.isPrefixOf kPasteEnd = true) (hend : kPasteEnd.isPrefixOf d.pending = true) :
    d.PasteFed data
      ({ d.consume kPasteEnd.length with pasting := false, pasteReady := true }, data) := by
  have hall : d.pending = kPasteEnd :=
    (List.isPrefixOf_iff_prefix.mp hheld).eq_of_length_le
      (List.isPrefixOf_iff_prefix.mp hend).length_le
  have hstep : nextRecogniser.step d.mode (d.pending ++ data) =
      some ([pasteToken d.paste d.pasteOverflow], .plain, data) := by
    have hlead : kPasteEnd.isPrefixOf (kPasteEnd ++ data) = true :=
      List.isPrefixOf_iff_prefix.mpr (List.prefix_append _ _)
    rw [mode_of_pasting hpasting, hall]
    show pasteStep d.paste d.pasteOverflow (kPasteEnd ++ data) = _
    unfold pasteStep
    rw [if_pos hlead, List.drop_left]
  refine ⟨hfits, fun h => absurd h Bool.false_ne_true, fun _ => ⟨rfl, ?_, ?_⟩⟩
  rotate_left
  · exact Recogniser.drain_of_some hstep
  show d.pending.drop kPasteEnd.length = []
  rw [hall, List.drop_length]

theorem pasteFed (hpasting : d.pasting = true) (hready : d.pasteReady = false)
    (hfits : d.pendingOverflow = false) (hheld : d.pending.isPrefixOf kPasteEnd = true)
    (data : Bytes) : d.PasteFed data (d.feedPaste data) := by
  induction data generalizing d with
  | nil =>
    rw [feedPaste]
    by_cases hend : kPasteEnd.isPrefixOf d.pending = true
    · rw [if_pos hend]
      exact pasteFed_end hpasting hfits hheld hend
    · rw [if_neg hend]
      refine ⟨hfits, fun _ => ⟨rfl, hready, by rw [List.append_nil]⟩, fun h => ?_⟩
      rw [hpasting] at h
      exact absurd h (by decide)
  | cons byte data ih =>
    rw [feedPaste]
    by_cases hend : kPasteEnd.isPrefixOf d.pending = true
    · rw [if_pos hend]
      exact pasteFed_end hpasting hfits hheld hend
    · rw [if_neg hend]
      have hshort : d.pending.length < kPasteEnd.length := by
        by_contra hge
        have hall := (List.isPrefixOf_iff_prefix.mp hheld).eq_of_length_le (not_lt.mp hge)
        exact hend (List.isPrefixOf_iff_prefix.mpr (hall ▸ List.prefix_rfl))
      have hspilled : d.Spilled (d.pending ++ [byte]) (d.spill (d.pending ++ [byte])) := by
        apply spilled hpasting
        rw [List.length_append]
        exact hshort
      have hsame : nextRecogniser.drain d.mode (d.pending ++ byte :: data) =
          nextRecogniser.drain (d.spill (d.pending ++ [byte])).mode
            ((d.spill (d.pending ++ [byte])).pending ++ data) := by
        rw [← hspilled.drain, List.append_assoc]
        rfl
      have hfed := ih hspilled.pasting (hspilled.ready.trans hready) (hspilled.fits.trans hfits)
        hspilled.held
      refine ⟨hfed.fits, fun h => ?_, fun h => ?_⟩
      · rw [hsame]
        exact hfed.going h
      · rw [hsame]
        exact hfed.ended h

/-- Bytes that wait with the others. -/
theorem fed_feedPending {d' : TerminalInputDecoder} {more : Bytes}
    (hready : d'.pasteReady = true → d'.pasting = false)
    (hdrain : nextRecogniser.drain d.mode (d.pending ++ data) =
      (d'.readyTokens ++ (nextRecogniser.drain d'.mode (d'.pending ++ more)).1,
        (nextRecogniser.drain d'.mode (d'.pending ++ more)).2))
    (hfits : (d'.feedPending more).pendingOverflow = false) : d.Fed data (d'.feedPending more) := by
  rw [feedPending] at hfits ⊢
  split_ifs at hfits ⊢
  exact ⟨hready, hdrain⟩

/-- The rounds of `Feed` from within a paste. -/
theorem fed_feedPasting (hpasting : d.pasting = true) (hready : d.pasteReady = false)
    (hfits : d.pendingOverflow = false) (hheld : d.pending.isPrefixOf kPasteEnd = true)
    (hout : (d.feedPasting data).pendingOverflow = false) : d.Fed data (d.feedPasting data) := by
  rw [feedPasting] at hout ⊢
  by_cases hempty : data = []
  · rw [if_pos hempty]
    refine ⟨fun h => ?_, ?_⟩
    · rw [hready] at h
      exact absurd h (by decide)
    · rw [hempty, List.append_nil, readyTokens, hready]
      rfl
  · rw [if_neg hempty] at hout ⊢
    have hfed := pasteFed hpasting hready hfits hheld data
    generalize d.feedPaste data = out at hfed hout
    obtain ⟨d', rest⟩ := out
    dsimp only at hout ⊢
    by_cases hgoing : d'.pasting = true
    · obtain ⟨hrest, hready', hdrain⟩ := hfed.going hgoing
      dsimp only at hrest hready' hdrain
      rw [if_pos (.inl hgoing)]
      refine ⟨fun h => ?_, ?_⟩
      · rw [hready'] at h
        exact absurd h (by decide)
      · rw [hdrain, readyTokens, hready']
        rfl
    · rw [Bool.not_eq_true] at hgoing
      obtain ⟨hready', hpending, hdrain⟩ := hfed.ended hgoing
      dsimp only at hready' hpending hdrain
      have hmode := mode_of_not_pasting hgoing
      by_cases hrest : rest = []
      · rw [if_pos (.inr hrest)]
        refine ⟨fun _ => hgoing, ?_⟩
        rw [hdrain, readyTokens, if_pos hready', hmode, hpending, hrest]
        rfl
      · have hgo : ¬(d'.pasting = true ∨ rest = []) := by
          rw [hgoing]
          simpa using hrest
        rw [if_neg hgo] at hout ⊢
        refine fed_feedPending (fun _ => hgoing) ?_ hout
        rw [hdrain, readyTokens, if_pos hready', hmode, hpending]
        rfl

/-- A marker that is there, or comes with the data, starts the paste. -/
theorem step_kPasteStart (more : Bytes) :
    nextRecogniser.step .plain (kPasteStart ++ more) = some ([], .paste [] false, more) := by
  have hverdict : nextVerdict (kPasteStart ++ more) = .startPaste := rfl
  show plainStep nextVerdict (kPasteStart ++ more) = _
  rw [plainStep, hverdict]
  rfl

/-- The rounds of `Feed` from the marker of a paste. -/
theorem fed_startPaste {d' : TerminalInputDecoder} {rest : Bytes}
    (hpending : d'.pending = kPasteStart) (hready : d'.pasteReady = false) (hfits : d'.pendingOverflow = false)
    (hdata : d.pending ++ data = kPasteStart ++ rest) (hmode : d.mode = .plain)
    (hout : (d'.startPaste.feedPasting rest).pendingOverflow = false) :
    d.Fed data (d'.startPaste.feedPasting rest) := by
  have hleft : d'.startPaste.pending = [] := by
    show d'.pending.drop kPasteStart.length = []
    rw [hpending, List.drop_length]
  have hfed := @fed_feedPasting d'.startPaste rest rfl hready hfits (by rw [hleft]; rfl) hout
  have hdrain := hfed.drain
  rw [hleft, mode_startPaste, List.nil_append] at hdrain
  refine ⟨hfed.paste, ?_⟩
  rw [hdata, hmode, Recogniser.drain_of_some (step_kPasteStart _), List.nil_append]
  exact hdrain

/-- **`Feed`** does nothing that the recogniser would not do. -/
theorem fed_feed (h : d.Settled) (hout : (d.feed data).pendingOverflow = false) :
    d.Fed data (d.feed data) := by
  have hnotReady (d' : TerminalInputDecoder) (hready : d'.pasteReady = false) :
      d'.pasteReady = true → d'.pasting = false := by
    rw [hready]
    exact fun h => absurd h Bool.false_ne_true
  have hfits := h.fits
  rw [feed] at hout ⊢
  by_cases hnone : data = [] ∨ d.pendingOverflow = true
  · rw [if_pos hnone]
    obtain rfl : data = [] := by
      rcases hnone with hempty | hover
      · exact hempty
      · rw [h.fits] at hover
        exact absurd hover Bool.false_ne_true
    refine ⟨hnotReady d h.ready, ?_⟩
    rw [List.append_nil, readyTokens, h.ready]
    rfl
  rw [if_neg hnone] at hout ⊢
  by_cases hpasting : d.pasting = true
  · rw [if_pos hpasting] at hout ⊢
    have hwaits : pasteStep d.paste d.pasteOverflow d.pending = none :=
      (step_pasting hpasting).symm.trans h.waits
    exact fed_feedPasting hpasting h.ready h.fits (held_of_pasteStep_none hwaits) hout
  rw [if_neg hpasting] at hout ⊢
  rw [Bool.not_eq_true] at hpasting
  have hmode := mode_of_not_pasting hpasting
  by_cases hmarker : (!d.pasteReady && d.pending.isPrefixOf kPasteStart) = true
  · rw [if_pos hmarker] at hout ⊢
    have hlead : d.pending <+: kPasteStart :=
      List.isPrefixOf_iff_prefix.mp (Bool.and_eq_true_iff.mp hmarker).2
    have hsix : kPasteStart.length = 6 := by decide
    have hle := hlead.length_le
    obtain ⟨count, hcount⟩ :
        ∃ count, count = min data.length (kPasteStart.length - d.pending.length) := ⟨_, rfl⟩
    have hdata : d.pending ++ data = (d.pending ++ data.take count) ++ data.drop count := by
      rw [List.append_assoc, List.take_append_drop]
    have hlen : (d.pending ++ data.take count).length =
        d.pending.length + min count data.length := by
      rw [List.length_append, List.length_take]
    rw [← hcount] at hout ⊢
    dsimp only at hout ⊢
    by_cases hstart : kPasteStart.isPrefixOf (d.pending ++ data.take count) = true
    · have hall : kPasteStart = d.pending ++ data.take count :=
        (List.isPrefixOf_iff_prefix.mp hstart).eq_of_length_le (by omega)
      rw [if_pos hstart] at hout ⊢
      exact fed_startPaste hall.symm h.ready h.fits (hall ▸ hdata) hmode hout
    rw [if_neg hstart] at hout ⊢
    by_cases hwaits : (d.pending ++ data.take count).isPrefixOf kPasteStart = true ∨
        data.drop count = []
    · rw [if_pos hwaits]
      have hrest : data.drop count = [] := by
        rcases hwaits with hheld | hrest
        · have hshort : (d.pending ++ data.take count).length < kPasteStart.length := by
            by_contra hge
            have hall := (List.isPrefixOf_iff_prefix.mp hheld).eq_of_length_le (not_lt.mp hge)
            exact hstart (List.isPrefixOf_iff_prefix.mpr (hall ▸ List.prefix_rfl))
          apply List.drop_eq_nil_of_le
          omega
        · exact hrest
      refine ⟨hnotReady _ h.ready, ?_⟩
      rw [hdata, hrest, List.append_nil, readyTokens, h.ready]
      rfl
    · rw [if_neg hwaits] at hout ⊢
      refine fed_feedPending (hnotReady _ h.ready) ?_ hout
      rw [hdata, readyTokens, h.ready]
      rfl
  · rw [if_neg hmarker] at hout ⊢
    refine fed_feedPending (hnotReady d h.ready) ?_ hout
    rw [readyTokens, h.ready]
    rfl

/-- **The decoder is the recogniser.** -/
theorem decode_eq_reads {reads : List Bytes} (h : d.Settled) (hfits : d.Fits reads) :
    d.decode reads = nextRecogniser.reads d.mode d.pending reads := by
  induction reads generalizing d with
  | nil => rfl
  | cons read reads ih =>
    obtain ⟨hfirst, hmore⟩ := hfits
    have hfed := fed_feed h hfirst
    have htaken := taken_takeAll hfed.paste hfirst
    rw [Recogniser.reads, decode, hfed.drain]
    generalize (d.feed read).takeAll = out at htaken hmore
    obtain ⟨d', tokens⟩ := out
    rw [htaken.left, ← ih htaken.settled hmore]
    exact congrArg (· ++ d'.decode reads) htaken.tokens

end Feed

/-! ### Short reads -/

section Short

variable {d : TerminalInputDecoder} {data : Bytes}

theorem length_spill_le (l : Bytes) : (d.spill l).pending.length ≤ l.length := by
  induction l generalizing d with
  | nil => exact le_rfl
  | cons byte rest ih =>
    rw [spill]
    split_ifs
    · exact le_rfl
    · exact ih.trans (Nat.le_succ _)

theorem pendingOverflow_spill (l : Bytes) :
    (d.spill l).pendingOverflow = d.pendingOverflow := by
  induction l generalizing d with
  | nil => rfl
  | cons byte rest ih =>
    rw [spill]
    split_ifs
    · rfl
    · rw [ih, appendPasteByte]
      split_ifs <;> rfl

theorem length_feedPaste_le (d : TerminalInputDecoder) (data : Bytes) :
    (d.feedPaste data).1.pending.length + (d.feedPaste data).2.length ≤
      d.pending.length + data.length := by
  induction data generalizing d with
  | nil =>
    rw [feedPaste]
    split_ifs
    · show (d.pending.drop _).length + _ ≤ _
      rw [List.length_drop]
      exact Nat.add_le_add_right (Nat.sub_le _ _) _
    · exact le_rfl
  | cons byte data ih =>
    rw [feedPaste]
    split_ifs
    · show (d.pending.drop _).length + _ ≤ _
      rw [List.length_drop]
      exact Nat.add_le_add_right (Nat.sub_le _ _) _
    · have hspill := @length_spill_le d (d.pending ++ [byte])
      have hrest := ih (d.spill (d.pending ++ [byte]))
      rw [List.length_append, List.length_singleton] at hspill
      rw [List.length_cons]
      omega

theorem pendingOverflow_feedPaste (d : TerminalInputDecoder) (data : Bytes) :
    (d.feedPaste data).1.pendingOverflow = d.pendingOverflow := by
  induction data generalizing d with
  | nil =>
    rw [feedPaste]
    split_ifs <;> rfl
  | cons byte data ih =>
    rw [feedPaste]
    split_ifs
    · rfl
    · rw [ih, pendingOverflow_spill]

theorem feedPending_fits (hfits : d.pendingOverflow = false)
    (hlen : d.pending.length + data.length ≤ kInputBufferBytes) :
    (d.feedPending data).pendingOverflow = false := by
  rw [feedPending, if_neg (by omega)]
  exact hfits

theorem feedPasting_fits (hfits : d.pendingOverflow = false)
    (hlen : d.pending.length + data.length ≤ kInputBufferBytes) :
    (d.feedPasting data).pendingOverflow = false := by
  have hout := (pendingOverflow_feedPaste d data).trans hfits
  have hle := (length_feedPaste_le d data).trans hlen
  rw [feedPasting]
  by_cases hempty : data = []
  · rw [if_pos hempty]
    exact hfits
  · rw [if_neg hempty]
    generalize d.feedPaste data = out at hout hle
    obtain ⟨d', rest⟩ := out
    dsimp only at hout hle ⊢
    split_ifs
    · exact hout
    · exact feedPending_fits hout hle

theorem feed_fits (hfits : d.pendingOverflow = false)
    (hlen : d.pending.length + data.length ≤ kInputBufferBytes) :
    (d.feed data).pendingOverflow = false := by
  have hcut (count : Nat) :
      (d.pending ++ data.take count).length + (data.drop count).length ≤ kInputBufferBytes := by
    rw [← List.length_append, List.append_assoc, List.take_append_drop, List.length_append]
    exact hlen
  rw [feed]
  dsimp only
  split_ifs
  · exact hfits
  · exact feedPasting_fits hfits hlen
  · refine feedPasting_fits hfits (le_trans (Nat.add_le_add_right ?_ _) (hcut _))
    show ((d.pending ++ _).drop _).length ≤ _
    rw [List.length_drop]
    exact Nat.sub_le _ _
  · exact hfits
  · exact feedPending_fits hfits (hcut _)
  · exact feedPending_fits hfits hlen

/-- Reads that are short enough fit. -/
theorem fits_of_short {reads : List Bytes} (h : d.Settled)
    (hshort : ∀ read ∈ reads, read.length ≤ kInputBufferBytes - kInputStringSequenceBytes) :
    d.Fits reads := by
  induction reads generalizing d with
  | nil => trivial
  | cons read reads ih =>
    have hread := hshort read List.mem_cons_self
    have hfirst : (d.feed read).pendingOverflow = false := by
      refine feed_fits h.fits ?_
      have hpending := length_lt_of_step_none h.waits
      simp only [kInputBufferBytes, kInputStringSequenceBytes] at *
      omega
    have hfed := fed_feed h hfirst
    exact ⟨hfirst, ih (taken_takeAll hfed.paste hfirst).settled
      fun other hother => hshort other (List.mem_cons_of_mem read hother)⟩

end Short

end TerminalInputDecoder

end UAgent
