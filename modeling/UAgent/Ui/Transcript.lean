/-
UAgent/Ui/Transcript.lean

The pipe between what prints and the terminal (src/ui/frame.cc): records and
tails are framed by a marker, a kind and a length, everything else is text as
it stands.  `InteractiveTranscript.Feed` takes the bytes as they arrive.

`frameRecogniser` decides about the front of the pending bytes alone, byte by
byte where the loop of `Feed` searches for the next marker (`feedLoop_eq`).  It
is stable, so that the reads do not matter (`feeds_congr`).
-/
import UAgent.Base.HeldTail
import UAgent.Base.Incremental

namespace UAgent

open Bytes

/-! ### Frames -/

def kFrameMagic : Bytes := 0x1e :: (lit "UAGENT" ++ [0x1f])
def kFrameHeaderBytes : Nat := kFrameMagic.length + 1 + 8
def kRecordFrame : UInt8 := 1
def kTailFrame : UInt8 := 2

/-- `ValidFrameKind`. -/
def validFrameKind (kind : UInt8) : Bool := kind = kRecordFrame || kind = kTailFrame

/-- The lowest `count` bytes of a number, the highest first. -/
def lengthBytes : Nat → Nat → Bytes
  | 0, _ => []
  | count + 1, n => lengthBytes count (n / 256) ++ [UInt8.ofNat (n % 256)]

/-- The kind that a header gives. -/
def headerKind (header : Bytes) : UInt8 := (header[kFrameMagic.length]?).getD 0

/-- `FrameLength`. -/
def frameLength (header : Bytes) : Nat :=
  bigEndian ((header.take kFrameHeaderBytes).drop (kFrameMagic.length + 1))

/-- `WriteFrame`: what it writes, with and without the persistent composer. -/
def writeFrame (persistent : Bool) (kind : UInt8) (payload : Bytes) : Bytes :=
  if persistent then kFrameMagic ++ kind :: lengthBytes 8 payload.length ++ payload else payload

/-- `WriteTerminalRecord`. -/
def writeTerminalRecord (persistent : Bool) (text : Bytes) : Bytes :=
  writeFrame persistent kRecordFrame text

/-- `WriteTerminalTail`. -/
def writeTerminalTail (persistent : Bool) (text : Bytes) : Bytes :=
  if text = [] then [] else writeFrame persistent kTailFrame text

/-- `PartialMagicSuffix`. -/
def partialMagicSuffix (text : Bytes) : Nat :=
  heldTail kFrameMagic text (min text.length (kFrameMagic.length - 1))

theorem length_kFrameMagic : kFrameMagic.length = 8 := by decide

theorem kFrameHeaderBytes_eq : kFrameHeaderBytes = 17 := by decide

/-! ### What is shown -/

/-- The lines of a text that are ended. -/
def endedLines (text : Bytes) : Bytes := text.take (text.length - (afterLast 0x0a text).length)

theorem endedLines_append_afterLast (text : Bytes) :
    endedLines text ++ afterLast 0x0a text = text := by
  obtain ⟨before, hbefore⟩ : afterLast 0x0a text <:+ text := List.rtakeWhile_suffix _ text
  have htake : endedLines text = before := by
    rw [endedLines, ← congrArg List.length hbefore, List.length_append, Nat.add_sub_cancel]
    nth_rewrite 1 [← hbefore]
    exact List.take_left
  rw [htake, hbefore]

theorem afterLast_afterLast_append (a b : Bytes) :
    afterLast 0x0a (afterLast 0x0a a ++ b) = afterLast 0x0a (a ++ b) := by
  by_cases hb : (0x0a : UInt8) ∈ b
  · rw [afterLast_append_of_mem _ hb, afterLast_append_of_mem _ hb]
  · rw [afterLast_append_of_not_mem _ hb, afterLast_append_of_not_mem _ hb,
      afterLast_eq_self (not_mem_afterLast _ _)]

theorem endedLines_append (text more : Bytes) :
    endedLines (text ++ more) = endedLines text ++ endedLines (afterLast 0x0a text ++ more) := by
  refine (List.append_left_inj (afterLast 0x0a (text ++ more))).mp ?_
  rw [endedLines_append_afterLast, ← afterLast_afterLast_append text more, List.append_assoc,
    endedLines_append_afterLast, ← List.append_assoc, endedLines_append_afterLast]

/-- `InteractiveOutputUpdate`.  While a `Feed` goes on its tail is the one of
the transcript. -/
structure InteractiveOutputUpdate where
  committed : Bytes := []
  tail : Bytes := []
  changed : Bool := false
deriving DecidableEq

namespace InteractiveOutputUpdate

/-- `AppendTail`. -/
def appendTail (update : InteractiveOutputUpdate) (text : Bytes) : InteractiveOutputUpdate :=
  if text = [] then update
  else
    { committed := update.committed ++ endedLines (update.tail ++ text)
      tail := afterLast 0x0a (update.tail ++ text)
      changed := true }

/-- `CommitTail`. -/
def commitTail (update : InteractiveOutputUpdate) : InteractiveOutputUpdate :=
  if update.tail = [] then update
  else
    { committed := update.committed ++ update.tail ++ [0x0a]
      tail := []
      changed := true }

/-- A record behind what is committed, on lines of its own. -/
def commitRecord (update : InteractiveOutputUpdate) (payload : Bytes) : InteractiveOutputUpdate :=
  if payload = [] then update
  else
    { update with
      committed :=
        update.committed ++ payload ++ if payload.getLast? = some 0x0a then [] else [0x0a]
      changed := true }

/-- `ApplyFrame`. -/
def applyFrame (update : InteractiveOutputUpdate) (kind : UInt8) (payload : Bytes) :
    InteractiveOutputUpdate :=
  if kind = kTailFrame then update.appendTail payload else update.commitTail.commitRecord payload

@[simp] theorem appendTail_nil (update : InteractiveOutputUpdate) : update.appendTail [] = update :=
  if_pos rfl

/-- Text is appended in any pieces. -/
theorem appendTail_append (update : InteractiveOutputUpdate) (a b : Bytes) :
    update.appendTail (a ++ b) = (update.appendTail a).appendTail b := by
  by_cases ha : a = []
  · rw [ha, List.nil_append, appendTail_nil]
  by_cases hb : b = []
  · rw [hb, List.append_nil, appendTail_nil]
  have hab : a ++ b ≠ [] := List.append_ne_nil_of_left_ne_nil ha b
  rw [appendTail, if_neg hab, appendTail, if_neg hb, appendTail, if_neg ha]
  dsimp only
  rw [← List.append_assoc update.tail, endedLines_append, afterLast_afterLast_append,
    List.append_assoc update.committed]

/-- What an update is behind another. -/
def after (update before : InteractiveOutputUpdate) : InteractiveOutputUpdate :=
  { committed := before.committed ++ update.committed
    tail := update.tail
    changed := before.changed || update.changed }

/-- An update goes on from its tail. -/
theorem after_tail (update : InteractiveOutputUpdate) :
    after { tail := update.tail } update = update := by
  rw [after, List.append_nil, Bool.or_false]

theorem after_appendTail (update before : InteractiveOutputUpdate) (text : Bytes) :
    (update.after before).appendTail text = (update.appendTail text).after before := by
  unfold appendTail
  split_ifs
  · rfl
  · simp [after]

theorem after_commitTail (update before : InteractiveOutputUpdate) :
    (update.after before).commitTail = update.commitTail.after before := by
  by_cases h : update.tail = []
  · rw [commitTail, commitTail, if_pos h]
    exact if_pos h
  · rw [commitTail, commitTail, if_neg h]
    exact (if_neg h).trans (by simp [after])

theorem after_commitRecord (update before : InteractiveOutputUpdate) (payload : Bytes) :
    (update.after before).commitRecord payload = (update.commitRecord payload).after before := by
  unfold commitRecord
  split_ifs
  · rfl
  · simp [after]
  · simp [after]

theorem after_applyFrame (update before : InteractiveOutputUpdate) (kind : UInt8)
    (payload : Bytes) :
    (update.after before).applyFrame kind payload =
      (update.applyFrame kind payload).after before := by
  unfold applyFrame
  split_ifs
  · exact after_appendTail _ _ _
  · rw [after_commitTail, after_commitRecord]

end InteractiveOutputUpdate

/-! ### The parser -/

structure InteractiveTranscript where
  wire : Bytes := []
  tail : Bytes := []
deriving DecidableEq

/-- The loop of `Feed` over what is left of the wire.  A length is no more than
a `size_t`. -/
def feedLoop (rest : Bytes) (update : InteractiveOutputUpdate) : Bytes × InteractiveOutputUpdate :=
  match find kFrameMagic rest with
  | none =>
    let shown := rest.length - partialMagicSuffix rest
    (rest.drop shown, update.appendTail (rest.take shown))
  | some marker =>
    let frame := rest.drop marker
    let update := update.appendTail (rest.take marker)
    if _h : frame.length < kFrameHeaderBytes then (frame, update)
    else if !validFrameKind (headerKind frame) then
      feedLoop (frame.drop 1) (update.appendTail (frame.take 1))
    else if frame.length - kFrameHeaderBytes < frameLength frame then (frame, update)
    else
      feedLoop (frame.drop (kFrameHeaderBytes + frameLength frame))
        (update.applyFrame (headerKind frame)
          ((frame.drop kFrameHeaderBytes).take (frameLength frame)))
termination_by rest.length
decreasing_by
  all_goals
    simp only [frame, kFrameHeaderBytes_eq, List.length_drop] at _h ⊢
    omega

/-- What `finish` does with the bytes that are left on the wire. -/
def finishWire (wire : Bytes) (update : InteractiveOutputUpdate) : InteractiveOutputUpdate :=
  if wire = [] then update
  else if kFrameMagic <+: wire ∧ kFrameHeaderBytes ≤ wire.length then
    if validFrameKind (headerKind wire) then
      update.applyFrame (headerKind wire) (wire.drop kFrameHeaderBytes)
    else update
  else if ¬kFrameMagic <+: wire ∧ ¬wire <+: kFrameMagic then update.appendTail wire
  else update

namespace InteractiveTranscript

/-- `Feed`. -/
def feed (transcript : InteractiveTranscript) (bytes : Bytes) (finish : Bool) :
    InteractiveTranscript × InteractiveOutputUpdate :=
  let looped := feedLoop (transcript.wire ++ bytes) { tail := transcript.tail }
  if finish then
    let update := (finishWire looped.1 looped.2).commitTail
    (⟨[], update.tail⟩, update)
  else (⟨looped.1, looped.2.tail⟩, looped.2)

/-- `Feed` of one read after another, and all that was committed. -/
def feeds (transcript : InteractiveTranscript) : List Bytes → InteractiveTranscript × Bytes
  | [] => (transcript, [])
  | read :: reads =>
    let fed := transcript.feed read false
    let rest := feeds fed.1 reads
    (rest.1, fed.2.committed ++ rest.2)

/-- All that is committed of some reads when the last one finishes them. -/
def shown (reads : List Bytes) (last : Bytes) : Bytes :=
  (feeds {} reads).2 ++ ((feeds {} reads).1.feed last true).2.committed

end InteractiveTranscript

/-! ### A byte at a time -/

/-- What a piece of the wire is. -/
inductive WirePiece
  | text (byte : UInt8)
  | frame (kind : UInt8) (payload : Bytes)
deriving DecidableEq

/-- What a piece shows. -/
def WirePiece.apply (update : InteractiveOutputUpdate) : WirePiece → InteractiveOutputUpdate
  | .text byte => update.appendTail [byte]
  | .frame kind payload => update.applyFrame kind payload

/-- What the front of the wire is: text, a frame, or not known yet. -/
def wirePiece : Bytes → Option (List WirePiece × Unit × Bytes)
  | [] => none
  | byte :: rest =>
    if kFrameMagic <+: byte :: rest then
      if rest.length + 1 < kFrameHeaderBytes then none
      else if !validFrameKind (headerKind (byte :: rest)) then some ([.text byte], (), rest)
      else if rest.length + 1 - kFrameHeaderBytes < frameLength (byte :: rest) then none
      else
        some ([.frame (headerKind (byte :: rest))
            (((byte :: rest).drop kFrameHeaderBytes).take (frameLength (byte :: rest)))], (),
          (byte :: rest).drop (kFrameHeaderBytes + frameLength (byte :: rest)))
    else if byte :: rest <+: kFrameMagic then none
    else some ([.text byte], (), rest)

/-- The wire, decided about at its front. -/
def frameRecogniser : Recogniser Unit UInt8 WirePiece where
  step _ := wirePiece
  shrinks {_ x o _ r} h := by
    cases x with
    | nil => cases h
    | cons byte rest =>
      rw [wirePiece] at h
      split_ifs at h
      all_goals
        cases h
        simp only [kFrameHeaderBytes_eq, List.length_drop, List.length_cons]
        omega

variable {x y : Bytes}

theorem headerKind_append (h : kFrameHeaderBytes ≤ x.length) (y : Bytes) :
    headerKind (x ++ y) = headerKind x := by
  rw [kFrameHeaderBytes_eq] at h
  rw [headerKind, headerKind, List.getElem?_append_left (by rw [length_kFrameMagic]; omega)]

theorem frameLength_append (h : kFrameHeaderBytes ≤ x.length) (y : Bytes) :
    frameLength (x ++ y) = frameLength x := by
  rw [frameLength, frameLength, List.take_append_of_le_length h]

/-- What is known of the front stays. -/
theorem frameRecogniser_stable : frameRecogniser.Stable := by
  intro s x o s' r h y
  cases x with
  | nil => cases h
  | cons byte rest =>
    change wirePiece (byte :: rest) = some (o, s', r) at h
    show wirePiece (byte :: (rest ++ y)) = some (o, s', r ++ y)
    rw [wirePiece] at h ⊢
    by_cases hmagic : kFrameMagic <+: byte :: rest
    · have hmore : kFrameMagic <+: byte :: (rest ++ y) :=
        hmagic.trans (List.prefix_append (byte :: rest) y)
      rw [if_pos hmagic] at h
      by_cases hshort : rest.length + 1 < kFrameHeaderBytes
      · rw [if_pos hshort] at h
        cases h
      have hlen : kFrameHeaderBytes ≤ (byte :: rest).length := not_lt.mp hshort
      have hlonger : ¬(rest ++ y).length + 1 < kFrameHeaderBytes := by
        rw [List.length_append]
        omega
      rw [if_neg hshort] at h
      rw [if_pos hmore, if_neg hlonger, ← List.cons_append, headerKind_append hlen,
        frameLength_append hlen]
      split_ifs at h ⊢ with hkind hlong hlong'
      · cases h
        rfl
      · rw [List.length_append] at hlong
        omega
      · have hend : kFrameHeaderBytes + frameLength (byte :: rest) ≤ (byte :: rest).length := by
          rw [List.length_cons] at hlen ⊢
          omega
        rw [List.drop_append_of_le_length hlen,
          List.take_append_of_le_length (by rw [List.length_drop]; omega),
          List.drop_append_of_le_length hend]
        cases h
        rfl
    · rw [if_neg hmagic] at h
      split_ifs at h with hpart
      have hmagic' : ¬kFrameMagic <+: byte :: (rest ++ y) := fun hp =>
        (List.prefix_or_prefix_of_prefix hp (List.prefix_append (byte :: rest) y)).elim hmagic hpart
      have hpart' : ¬byte :: (rest ++ y) <+: kFrameMagic := fun hp =>
        hpart ((List.prefix_append (byte :: rest) y).trans hp)
      rw [if_neg hmagic', if_neg hpart']
      cases h
      rfl

/-! ### The loop takes the same pieces -/

/-- What cannot begin a marker is text. -/
theorem drain_text (text rest : Bytes)
    (h : ∀ u v, text = u ++ v → v ≠ [] → ¬kFrameMagic <+: v ++ rest ∧ ¬v ++ rest <+: kFrameMagic) :
    frameRecogniser.drain () (text ++ rest) =
      (text.map .text ++ (frameRecogniser.drain () rest).1, (frameRecogniser.drain () rest).2) := by
  induction text with
  | nil => rfl
  | cons byte text ih =>
    obtain ⟨hmagic, hpart⟩ := h [] (byte :: text) rfl (List.cons_ne_nil _ _)
    rw [List.cons_append] at hmagic hpart
    have hstep : frameRecogniser.step () (byte :: (text ++ rest)) =
        some ([.text byte], (), text ++ rest) := by
      show wirePiece (byte :: (text ++ rest)) = some ([.text byte], (), text ++ rest)
      rw [wirePiece, if_neg hmagic, if_neg hpart]
    rw [List.cons_append, Recogniser.drain_of_some hstep,
      ih fun u v huv hv => h (byte :: u) v (by rw [huv]; rfl) hv]
    rfl

theorem foldl_text (text : Bytes) (update : InteractiveOutputUpdate) :
    (text.map WirePiece.text).foldl WirePiece.apply update = update.appendTail text := by
  induction text generalizing update with
  | nil => exact (update.appendTail_nil).symm
  | cons byte text ih =>
    rw [List.map_cons, List.foldl_cons, ih]
    exact (update.appendTail_append [byte] text).symm

/-- The tail that is held begins the marker. -/
theorem drop_partialMagicSuffix (text : Bytes) :
    text.drop (text.length - partialMagicSuffix text) <+: kFrameMagic := by
  rw [partialMagicSuffix, drop_heldTail]
  exact List.take_prefix _ _

/-- Without a marker all is text but the tail that is held. -/
theorem drain_of_find_eq_none (h : find kFrameMagic x = none) :
    frameRecogniser.drain () x =
      ((x.take (x.length - partialMagicSuffix x)).map .text, (),
        x.drop (x.length - partialMagicSuffix x)) := by
  generalize hn : x.length - partialMagicSuffix x = n
  have hheld : x.drop n <+: kFrameMagic := hn ▸ drop_partialMagicSuffix x
  have hnone : ¬kFrameMagic <:+: x := find_eq_none_iff.mp h
  have hwait : frameRecogniser.step () (x.drop n) = none := by
    show wirePiece (x.drop n) = none
    cases hx : x.drop n with
    | nil => rfl
    | cons byte rest =>
      rw [hx] at hheld
      have hmagic : ¬kFrameMagic <+: byte :: rest := fun hm =>
        hnone ((hx ▸ hm.isInfix).trans (List.drop_suffix n x).isInfix)
      rw [wirePiece, if_neg hmagic, if_pos hheld]
  have htext := drain_text (x.take n) (x.drop n) fun u v huv hv => ?_
  · rw [List.take_append_drop, Recogniser.drain_of_none hwait, List.append_nil] at htext
    exact htext
  have hx : x = u ++ (v ++ x.drop n) := by rw [← List.append_assoc, ← huv, List.take_append_drop]
  generalize hw : v ++ x.drop n = w at hx ⊢
  have hsuffix : w <:+: x := ⟨u, [], by rw [List.append_nil, ← hx]⟩
  refine ⟨fun hm => hnone (hm.isInfix.trans hsuffix), fun hp => ?_⟩
  -- a longer tail would have been held
  have hlong : x.length - n < w.length := by
    have hvpos := List.length_pos_iff.mpr hv
    rw [← hw, List.length_append, List.length_drop]
    omega
  have hshort : w.length < kFrameMagic.length := by
    refine lt_of_le_of_ne hp.length_le fun heq => hnone ?_
    rw [← hp.eq_of_length heq]
    exact hsuffix
  have hle : w.length ≤ min x.length (kFrameMagic.length - 1) := by
    have := hsuffix.length_le
    omega
  have htail : x.drop (x.length - w.length) = kFrameMagic.take w.length := by
    rw [← List.prefix_iff_eq_take.mp hp]
    conv_lhs => rw [hx]
    rw [List.length_append, Nat.add_sub_cancel, List.drop_left]
  have := le_heldTail hle htail
  rw [← partialMagicSuffix] at this
  omega

/-- Before the first marker all is text. -/
theorem drain_of_find_eq_some {marker : Nat} (h : find kFrameMagic x = some marker) :
    frameRecogniser.drain () x =
      ((x.take marker).map .text ++ (frameRecogniser.drain () (x.drop marker)).1,
        (frameRecogniser.drain () (x.drop marker)).2) := by
  obtain ⟨a, b, rfl, rfl⟩ := exists_eq_append_of_find h
  rw [List.take_left, List.drop_left]
  refine drain_text a _ fun u v huv hv => ⟨?_, fun hp => ?_⟩
  · subst huv
    exact not_isPrefix_of_find_append h hv
  · have hle := hp.length_le
    have hpos := List.length_pos_iff.mpr hv
    rw [List.length_append, List.length_append] at hle
    omega

/-- **The loop of `Feed` takes the pieces of the wire.** -/
theorem feedLoop_eq (x : Bytes) (update : InteractiveOutputUpdate) :
    feedLoop x update =
      ((frameRecogniser.drain () x).2.2,
        (frameRecogniser.drain () x).1.foldl WirePiece.apply update) := by
  induction hn : x.length using Nat.strongRecOn generalizing x update with
  | _ n ih =>
    cases hfind : find kFrameMagic x with
    | none =>
      rw [feedLoop, hfind, drain_of_find_eq_none hfind]
      exact congrArg (Prod.mk _) (foldl_text _ _).symm
    | some marker =>
      rw [feedLoop, hfind, drain_of_find_eq_some hfind, List.foldl_append, foldl_text]
      dsimp only
      generalize update.appendTail (x.take marker) = update
      obtain ⟨a, b, rfl, rfl⟩ := exists_eq_append_of_find hfind
      rw [List.drop_left]
      have hmagic : kFrameMagic <+: kFrameMagic ++ b := List.prefix_append _ b
      have hlen : (kFrameMagic ++ b).length ≤ n := hn ▸ (List.suffix_append a _).length_le
      generalize kFrameMagic ++ b = frame at hmagic hlen ⊢
      obtain ⟨byte, rest, rfl⟩ : ∃ byte rest, frame = byte :: rest :=
        List.exists_cons_of_ne_nil fun h => by
          rw [h] at hmagic
          exact absurd hmagic (by decide)
      have hstep : frameRecogniser.step () (byte :: rest) = wirePiece (byte :: rest) := rfl
      rw [wirePiece, if_pos hmagic] at hstep
      rw [List.length_cons]
      split_ifs with hshort hkind hlong
      · rw [if_pos hshort] at hstep
        rw [Recogniser.drain_of_none hstep]
        rfl
      · rw [if_neg hshort, if_pos hkind] at hstep
        rw [Recogniser.drain_of_some hstep, ih _ (by simp at hlen ⊢; omega) _ _ rfl]
        rfl
      · rw [if_neg hshort, if_neg hkind, if_pos hlong] at hstep
        rw [Recogniser.drain_of_none hstep]
        rfl
      · rw [if_neg hshort, if_neg hkind, if_neg hlong] at hstep
        rw [Recogniser.drain_of_some hstep, ih _ ?_ _ _ rfl]
        · rfl
        · rw [List.length_drop, kFrameHeaderBytes_eq]
          rw [List.length_cons] at hlen ⊢
          omega

/-! ### Reads -/

theorem WirePiece.apply_after (update before : InteractiveOutputUpdate) (piece : WirePiece) :
    piece.apply (update.after before) = (piece.apply update).after before := by
  cases piece with
  | text byte => exact update.after_appendTail before [byte]
  | frame kind payload => exact update.after_applyFrame before kind payload

theorem foldl_after (pieces : List WirePiece) (update before : InteractiveOutputUpdate) :
    pieces.foldl WirePiece.apply (update.after before) =
      (pieces.foldl WirePiece.apply update).after before := by
  induction pieces generalizing update with
  | nil => rfl
  | cons piece pieces ih =>
    rw [List.foldl_cons, List.foldl_cons, WirePiece.apply_after, ih]

namespace InteractiveTranscript

open InteractiveOutputUpdate

variable {transcript : InteractiveTranscript}

/-- What the whole of some bytes shows. -/
def showing (transcript : InteractiveTranscript) (bytes : Bytes) : InteractiveOutputUpdate :=
  (feedLoop (transcript.wire ++ bytes) { tail := transcript.tail }).2

/-- What the whole of some bytes leaves on the wire. -/
def leaving (transcript : InteractiveTranscript) (bytes : Bytes) : Bytes :=
  (feedLoop (transcript.wire ++ bytes) { tail := transcript.tail }).1

theorem feed_false (transcript : InteractiveTranscript) (read : Bytes) :
    transcript.feed read false =
      (⟨transcript.leaving read, (transcript.showing read).tail⟩, transcript.showing read) := rfl

/-- The bytes of two reads are those of one. -/
theorem leaving_append (transcript : InteractiveTranscript) (a b : Bytes) :
    transcript.leaving (a ++ b) = (transcript.feed a false).1.leaving b := by
  rw [feed_false, leaving, leaving, leaving, feedLoop_eq, feedLoop_eq, feedLoop_eq,
    ← List.append_assoc, Recogniser.drain_append frameRecogniser_stable]

theorem showing_append (transcript : InteractiveTranscript) (a b : Bytes) :
    transcript.showing (a ++ b) =
      ((transcript.feed a false).1.showing b).after (transcript.showing a) := by
  have hleft : transcript.leaving a = (frameRecogniser.drain () (transcript.wire ++ a)).2.2 := by
    rw [leaving, feedLoop_eq]
  have hshown : transcript.showing a =
      (frameRecogniser.drain () (transcript.wire ++ a)).1.foldl WirePiece.apply
        { tail := transcript.tail } := by
    rw [showing, feedLoop_eq]
  show (feedLoop (transcript.wire ++ (a ++ b)) _).2 =
    (feedLoop (transcript.leaving a ++ b) { tail := (transcript.showing a).tail }).2.after
      (transcript.showing a)
  rw [feedLoop_eq (transcript.leaving a ++ b), ← foldl_after, after_tail, hleft, hshown,
    feedLoop_eq, ← List.append_assoc, Recogniser.drain_append frameRecogniser_stable,
    List.foldl_append]

/-! ### Any reads -/

/-- The wire holds nothing that could be shown. -/
def Waits (transcript : InteractiveTranscript) : Prop :=
  frameRecogniser.step () transcript.wire = none

theorem waits_feed (transcript : InteractiveTranscript) (read : Bytes) :
    (transcript.feed read false).1.Waits := by
  rw [feed_false, Waits, leaving, feedLoop_eq]
  exact frameRecogniser.step_drain () (transcript.wire ++ read)

theorem feed_nil (h : transcript.Waits) :
    transcript.feed [] false = (transcript, { tail := transcript.tail }) := by
  rw [feed_false, leaving, showing, List.append_nil, feedLoop_eq, Recogniser.drain_of_none h]
  rfl

theorem feed_append (transcript : InteractiveTranscript) (a b : Bytes) :
    transcript.feed (a ++ b) false =
      (((transcript.feed a false).1.feed b false).1,
        ((transcript.feed a false).1.feed b false).2.after (transcript.feed a false).2) := by
  rw [feed_false, leaving_append, showing_append]
  rfl

/-- Reads are one read of all their bytes. -/
theorem feeds_eq (h : transcript.Waits) (reads : List Bytes) :
    transcript.feeds reads =
      ((transcript.feed reads.flatten false).1,
        (transcript.feed reads.flatten false).2.committed) := by
  induction reads generalizing transcript with
  | nil => rw [List.flatten_nil, feed_nil h, feeds]
  | cons read reads ih =>
    rw [List.flatten_cons, feed_append, feeds, ih (waits_feed transcript read)]
    rfl

theorem finishWire_after (wire : Bytes) (update before : InteractiveOutputUpdate) :
    finishWire wire (update.after before) = (finishWire wire update).after before := by
  unfold finishWire
  split_ifs
  · rfl
  · exact after_applyFrame _ _ _ _
  · rfl
  · exact after_appendTail _ _ _
  · rfl

/-- The last read of a transcript, and what is finished then. -/
theorem feed_true (transcript : InteractiveTranscript) (bytes : Bytes) :
    (transcript.feed bytes true).2 =
      (finishWire (transcript.leaving bytes) (transcript.showing bytes)).commitTail := rfl

/-- **The reads do not matter.**  However the bytes of the pipe are cut, what
is committed, the tail that is shown and the bytes that are held back are those
of one read, and so is everything that is committed when the last read ends the
transcript. -/
theorem reads_free (reads : List Bytes) (last : Bytes) :
    feeds {} reads = ((feed {} reads.flatten false).1, (feed {} reads.flatten false).2.committed) ∧
      shown reads last = (feed {} (reads.flatten ++ last) true).2.committed := by
  have hstart : Waits {} := rfl
  refine ⟨feeds_eq hstart reads, ?_⟩
  rw [shown, feeds_eq hstart, feed_true, feed_true, leaving_append, showing_append,
    finishWire_after, after_commitTail]
  rfl

end InteractiveTranscript

end UAgent
