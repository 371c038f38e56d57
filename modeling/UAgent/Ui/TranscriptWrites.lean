/-
UAgent/Ui/TranscriptWrites.lean

What is printed is what the terminal shows.  The text of a transcript
(`TerminalWrite.joined`) takes every write in order, a record on lines of its
own; its whole lines are committed and the line that is not ended is the tail.

A frame says how long it is, so that a record or a tail may hold anything, the
marker too.  Text that is printed as it stands must not hold the byte that a
marker begins with.  Main result: `feeds_writes`, for any reads.
-/
import UAgent.Ui.Transcript

namespace UAgent

open Bytes

/-- What is printed. -/
inductive TerminalWrite
  | record (text : Bytes)
  | tail (text : Bytes)
  /-- printed as it stands -/
  | plain (text : Bytes)
deriving DecidableEq

/-- A text whose last line is ended. -/
def closedLine (text : Bytes) : Bytes :=
  if text = [] ∨ text.getLast? = some 0x0a then text else text ++ [0x0a]

namespace TerminalWrite

/-- What it puts on the pipe. -/
def bytes : TerminalWrite → Bytes
  | .record text => writeTerminalRecord true text
  | .tail text => writeTerminalTail true text
  | .plain text => text

/-- The text of a transcript with one more write. -/
def joined (shown : Bytes) : TerminalWrite → Bytes
  | .record text => closedLine shown ++ closedLine text
  | .tail text => shown ++ text
  | .plain text => shown ++ text

/-- What can be printed so that it is read: no length is above a `size_t`, and
no byte that stands as it is begins a marker. -/
def Printable : TerminalWrite → Prop
  | .record text => text.length < 2 ^ 64
  | .tail text => text.length < 2 ^ 64
  | .plain text => 0x1e ∉ text

instance : (write : TerminalWrite) → Decidable write.Printable
  | .record text => inferInstanceAs (Decidable (text.length < 2 ^ 64))
  | .tail text => inferInstanceAs (Decidable (text.length < 2 ^ 64))
  | .plain text => inferInstanceAs (Decidable (0x1e ∉ text))

/-- The pieces it is on the wire. -/
def pieces : TerminalWrite → List WirePiece
  | .record text => [.frame kRecordFrame text]
  | .tail text => if text = [] then [] else [.frame kTailFrame text]
  | .plain text => text.map .text

end TerminalWrite

/-! ### Lengths -/

theorem length_lengthBytes (count n : Nat) : (lengthBytes count n).length = count := by
  induction count generalizing n with
  | zero => rfl
  | succ count ih => rw [lengthBytes, List.length_append, ih, List.length_singleton]

/-- A number is read back from its bytes. -/
theorem bigEndian_lengthBytes {count n : Nat} (h : n < 256 ^ count) :
    bigEndian (lengthBytes count n) = n := by
  induction count generalizing n with
  | zero => exact (Nat.lt_one_iff.mp h).symm
  | succ count ih =>
    have hdiv : n / 256 < 256 ^ count := Nat.div_lt_of_lt_mul (by rwa [Nat.pow_succ'] at h)
    have hbyte : (UInt8.ofNat (n % 256)).toNat = n % 256 := by
      rw [UInt8.toNat_ofNat']
      exact Nat.mod_eq_of_lt (Nat.mod_lt n (by decide))
    rw [lengthBytes, bigEndian_concat, ih hdiv, hbyte, Nat.div_add_mod']

/-! ### One write on the wire -/

section Wire

variable {kind : UInt8} {payload rest : Bytes}

/-- The header of a frame. -/
def frameHeader (kind : UInt8) (length : Nat) : Bytes := kFrameMagic ++ kind :: lengthBytes 8 length

theorem length_frameHeader (kind : UInt8) (length : Nat) :
    (frameHeader kind length).length = kFrameHeaderBytes := by
  rw [frameHeader, List.length_append, List.length_cons, length_lengthBytes]
  rfl

theorem headerKind_header (kind : UInt8) (length : Nat) :
    headerKind (frameHeader kind length) = kind := by
  rw [headerKind, frameHeader, List.getElem?_append_right le_rfl, Nat.sub_self]
  rfl

theorem frameLength_header (kind : UInt8) {length : Nat} (h : length < 2 ^ 64) :
    frameLength (frameHeader kind length) = length := by
  have hall : (frameHeader kind length).take kFrameHeaderBytes = frameHeader kind length :=
    List.take_of_length_le (length_frameHeader kind length).le
  have hlast : (frameHeader kind length).drop (kFrameMagic.length + 1) = lengthBytes 8 length := by
    rw [frameHeader, List.append_cons]
    exact List.drop_left' rfl
  rw [frameLength, hall, hlast]
  exact bigEndian_lengthBytes h

/-- A frame is taken as a whole. -/
theorem drain_frame (hkind : validFrameKind kind = true) (hlen : payload.length < 2 ^ 64)
    (rest : Bytes) :
    frameRecogniser.drain () (writeFrame true kind payload ++ rest) =
      (.frame kind payload :: (frameRecogniser.drain () rest).1,
        (frameRecogniser.drain () rest).2) := by
  have hwrite : writeFrame true kind payload ++ rest =
      frameHeader kind payload.length ++ (payload ++ rest) := by
    simp [writeFrame, frameHeader]
  have hheader := length_frameHeader kind payload.length
  have hmagic : kFrameMagic <+: frameHeader kind payload.length ++ (payload ++ rest) :=
    (List.prefix_append _ _).trans (List.prefix_append _ _)
  have hk := headerKind_append hheader.ge (payload ++ rest)
  have hl := frameLength_append hheader.ge (payload ++ rest)
  rw [headerKind_header] at hk
  rw [frameLength_header kind hlen] at hl
  have hall : (frameHeader kind payload.length ++ (payload ++ rest)).length =
      kFrameHeaderBytes + (payload.length + rest.length) := by
    rw [List.length_append, List.length_append, hheader]
  have hpayload : ((frameHeader kind payload.length ++ (payload ++ rest)).drop
      kFrameHeaderBytes).take payload.length = payload := by
    rw [← hheader, List.drop_left, List.take_left]
  have hrest : (frameHeader kind payload.length ++ (payload ++ rest)).drop
      (kFrameHeaderBytes + payload.length) = rest := by
    rw [← List.drop_drop, ← hheader, List.drop_left, List.drop_left]
  rw [hwrite]
  generalize frameHeader kind payload.length ++ (payload ++ rest) = wire at *
  obtain ⟨byte, more, rfl⟩ : ∃ byte more, wire = byte :: more :=
    List.exists_cons_of_ne_nil fun h => by
      rw [h] at hmagic
      exact absurd hmagic (by decide)
  have hstep : frameRecogniser.step () (byte :: more) = some ([.frame kind payload], (), rest) := by
    show wirePiece (byte :: more) = _
    rw [List.length_cons] at hall
    rw [wirePiece, if_pos hmagic, if_neg (by omega), hk, hl, if_neg (by simp [hkind]),
      if_neg (by omega), hpayload, hrest]
  rw [Recogniser.drain_of_some hstep]
  rfl

/-- Text without the byte of a marker is taken as it stands. -/
theorem drain_plain {text : Bytes} (h : 0x1e ∉ text) (rest : Bytes) :
    frameRecogniser.drain () (text ++ rest) =
      (text.map .text ++ (frameRecogniser.drain () rest).1, (frameRecogniser.drain () rest).2) := by
  refine drain_text text rest fun u v huv hv => ?_
  obtain ⟨byte, v, rfl⟩ := List.exists_cons_of_ne_nil hv
  have hbyte : byte ≠ 0x1e := by
    rintro rfl
    exact h (huv ▸ List.mem_append_right u List.mem_cons_self)
  constructor
  · intro hp
    exact hbyte (List.cons_prefix_cons.mp hp).1.symm
  · intro hp
    exact hbyte (List.cons_prefix_cons.mp hp).1

theorem TerminalWrite.drain_bytes {write : TerminalWrite} (h : write.Printable) (rest : Bytes) :
    frameRecogniser.drain () (write.bytes ++ rest) =
      (write.pieces ++ (frameRecogniser.drain () rest).1, (frameRecogniser.drain () rest).2) := by
  cases write with
  | record text => exact drain_frame (by decide) h rest
  | tail text =>
    by_cases hnil : text = []
    · simp [bytes, pieces, writeTerminalTail, hnil]
    · rw [bytes, pieces, writeTerminalTail, if_neg hnil, if_neg hnil]
      exact drain_frame (by decide) h rest
  | plain text => exact drain_plain h rest

theorem drain_writes {writes : List TerminalWrite} (h : ∀ write ∈ writes, write.Printable) :
    frameRecogniser.drain () (writes.flatMap TerminalWrite.bytes) =
      (writes.flatMap TerminalWrite.pieces, (), []) := by
  induction writes with
  | nil => exact Recogniser.drain_of_none rfl
  | cons write writes ih =>
    rw [List.flatMap_cons, TerminalWrite.drain_bytes (h write List.mem_cons_self),
      ih fun w hw => h w (List.mem_cons_of_mem write hw)]
    rfl

end Wire

/-! ### What it shows -/

section Shown

variable {update : InteractiveOutputUpdate} {text more : Bytes}

/-- The whole lines of a text are committed, and the rest is the tail. -/
structure ShowsText (update : InteractiveOutputUpdate) (text : Bytes) : Prop where
  committed : update.committed = endedLines text
  tail : update.tail = afterLast 0x0a text

theorem afterLast_eq_nil_iff :
    afterLast 0x0a text = [] ↔ text = [] ∨ text.getLast? = some 0x0a := by
  constructor
  · intro h
    rcases List.eq_nil_or_concat' text with rfl | ⟨init, last, rfl⟩
    · exact .inl rfl
    · refine .inr ?_
      by_contra hlast
      have hne : last ≠ 0x0a := by simpa using hlast
      have hnot : (0x0a : UInt8) ∉ [last] := by simpa using hne.symm
      rw [afterLast_append_of_not_mem _ hnot] at h
      exact List.append_ne_nil_of_right_ne_nil _ (List.cons_ne_nil _ _) h
  · rintro (rfl | hlast)
    · rfl
    · obtain ⟨init, rfl⟩ := List.getLast?_eq_some_iff.mp hlast
      exact afterLast_append_cons init List.not_mem_nil

theorem endedLines_of_closed (h : afterLast 0x0a text = []) : endedLines text = text := by
  have := endedLines_append_afterLast text
  rwa [h, List.append_nil] at this

theorem afterLast_closedLine (text : Bytes) : afterLast 0x0a (closedLine text) = [] := by
  unfold closedLine
  split_ifs with h
  · exact afterLast_eq_nil_iff.mpr h
  · exact afterLast_append_cons text List.not_mem_nil

theorem ShowsText.appendTail (h : ShowsText update text) :
    ShowsText (update.appendTail more) (text ++ more) := by
  by_cases hmore : more = []
  · rwa [hmore, List.append_nil, InteractiveOutputUpdate.appendTail_nil]
  · rw [InteractiveOutputUpdate.appendTail, if_neg hmore, h.committed, h.tail]
    exact ⟨(endedLines_append text more).symm, afterLast_afterLast_append text more⟩

theorem ShowsText.commitTail (h : ShowsText update text) :
    ShowsText update.commitTail (closedLine text) := by
  rw [InteractiveOutputUpdate.commitTail, h.tail, closedLine]
  by_cases hclosed : afterLast 0x0a text = []
  · rw [if_pos hclosed, if_pos (afterLast_eq_nil_iff.mp hclosed)]
    exact h
  · rw [if_neg hclosed, if_neg (mt afterLast_eq_nil_iff.mpr hclosed)]
    have hend : afterLast 0x0a (text ++ [0x0a]) = [] := afterLast_append_cons text List.not_mem_nil
    refine ⟨?_, hend.symm⟩
    rw [endedLines_of_closed hend, h.committed, endedLines_append_afterLast]

theorem ShowsText.commitRecord (h : ShowsText update text) (hclosed : afterLast 0x0a text = []) :
    ShowsText (update.commitRecord more) (text ++ closedLine more) := by
  have hend : afterLast 0x0a (text ++ closedLine more) = [] := by
    rw [← afterLast_afterLast_append, hclosed, List.nil_append, afterLast_closedLine]
  unfold InteractiveOutputUpdate.commitRecord
  split_ifs with hmore hlast
  · rw [hmore, closedLine, if_pos (.inl rfl), List.append_nil]
    exact h
  · rw [closedLine, if_pos (.inr hlast)] at hend ⊢
    refine ⟨?_, h.tail.trans (hclosed.trans hend.symm)⟩
    rw [endedLines_of_closed hend, h.committed, endedLines_of_closed hclosed, List.append_nil]
  · rw [closedLine, if_neg (not_or.mpr ⟨hmore, hlast⟩)] at hend ⊢
    refine ⟨?_, h.tail.trans (hclosed.trans hend.symm)⟩
    rw [endedLines_of_closed hend, h.committed, endedLines_of_closed hclosed, List.append_assoc]

theorem ShowsText.pieces (h : ShowsText update text) (write : TerminalWrite) :
    ShowsText (write.pieces.foldl WirePiece.apply update) (write.joined text) := by
  cases write with
  | record payload => exact h.commitTail.commitRecord (afterLast_closedLine text)
  | tail payload =>
    by_cases hnil : payload = []
    · rw [hnil, TerminalWrite.pieces, if_pos rfl, TerminalWrite.joined, List.append_nil]
      exact h
    · rw [TerminalWrite.pieces, if_neg hnil]
      exact h.appendTail
  | plain payload =>
    rw [TerminalWrite.pieces, foldl_text]
    exact h.appendTail

theorem showsText_writes (h : ShowsText update text) (writes : List TerminalWrite) :
    ShowsText ((writes.flatMap TerminalWrite.pieces).foldl WirePiece.apply update)
      (writes.foldl TerminalWrite.joined text) := by
  induction writes generalizing update text with
  | nil => exact h
  | cons write writes ih =>
    rw [List.flatMap_cons, List.foldl_append]
    exact ih (h.pieces write)

end Shown

namespace InteractiveTranscript

/-- **What is printed is shown**, whatever the reads: nothing stays on the
wire, the whole lines of the text are committed and its last line is the tail. -/
theorem feeds_writes {writes : List TerminalWrite} {reads : List Bytes}
    (hprintable : ∀ write ∈ writes, write.Printable)
    (hreads : reads.flatten = writes.flatMap TerminalWrite.bytes) :
    feeds {} reads =
      (⟨[], afterLast 0x0a (writes.foldl TerminalWrite.joined [])⟩,
        endedLines (writes.foldl TerminalWrite.joined [])) := by
  have hshows : ShowsText
      ((writes.flatMap TerminalWrite.pieces).foldl WirePiece.apply { tail := [] })
      (writes.foldl TerminalWrite.joined []) := showsText_writes ⟨rfl, rfl⟩ writes
  rw [@feeds_eq {} rfl, feed_false, leaving, showing, List.nil_append, hreads,
    feedLoop_eq, drain_writes hprintable, ← hshows.committed, ← hshows.tail]

/-- Two reads that cut a record whose text holds the marker. -/
theorem feeds_writes_marker :
    feeds {} [(writeTerminalRecord true kFrameMagic ++ lit "ab").take 12,
        (writeTerminalRecord true kFrameMagic ++ lit "ab").drop 12] =
      (⟨[], lit "ab"⟩, kFrameMagic ++ [0x0a]) :=
  @feeds_writes [.record kFrameMagic, .plain (lit "ab")] _ (by decide) (by decide)

end InteractiveTranscript

end UAgent
