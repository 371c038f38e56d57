/-
UAgent/Ui/SameTokens.lean

The streams whose tokens are the same however they are cut into reads
(src/ui/input_decoder.cc).  Where a string sequence past the bound is followed
by more than stays pending, two cuts tell them apart: bytes come one by one up
to the sequence and after it, and the sequence itself comes in one read that
ends before the byte that matters, or after it.

Main result: `sameTokens_iff`.
-/
import UAgent.Ui.InputCuts

namespace UAgent

open Bytes

/-! ### Byte by byte -/

/-- A read for every byte. -/
def byBytes (x : Bytes) : List Bytes := x.map fun byte => [byte]

theorem flatten_byBytes (x : Bytes) : (byBytes x).flatten = x := by
  induction x with
  | nil => rfl
  | cons byte x ih => exact congrArg (byte :: ·) ih

section ByBytes

variable {s : InputMode} {p x : Bytes}

/-- Up to the bound the source is the bounded recogniser. -/
theorem drain_eq_bounded (h : x.length ≤ kInputStringSequenceBytes) :
    nextRecogniser.drain s x = boundedRecogniser.drain s x := by
  induction s, x using Recogniser.drain_induction (R := nextRecogniser) with
  | wait s x hstep =>
    rw [Recogniser.drain_of_none hstep, Recogniser.drain_of_none (bounded_step_none hstep)]
  | take s x o s' r hstep ih =>
    have hbounded : boundedRecogniser.step s x = some (o, s', r) := by
      rw [← step_eq_bounded fun _ hlong => absurd hlong.2.1 (not_lt.mpr h)]
      exact hstep
    have hrest := ih ((Nat.le_of_lt (nextRecogniser.shrinks hstep)).trans h)
    rw [Recogniser.drain_of_some hstep, Recogniser.drain_of_some hbounded, hrest]

/-- Bytes that come one by one never get past the bound. -/
theorem reads_byBytes (more : List Bytes) (hwait : nextRecogniser.step s p = none) :
    nextRecogniser.reads s p (byBytes x ++ more) = (boundedRecogniser.drain s (p ++ x)).1 ++
      nextRecogniser.reads (boundedRecogniser.drain s (p ++ x)).2.1
        (boundedRecogniser.drain s (p ++ x)).2.2 more := by
  induction x generalizing s p with
  | nil =>
    rw [List.append_nil, Recogniser.drain_of_none (bounded_step_none hwait)]
    rfl
  | cons byte x ih =>
    have hshort : (p ++ [byte]).length ≤ kInputStringSequenceBytes := by
      rw [List.length_append]
      exact length_lt_of_step_none hwait
    have hsplit : p ++ byte :: x = (p ++ [byte]) ++ x := by
      rw [List.append_assoc]
      rfl
    have hrest := ih (nextRecogniser.step_drain s (p ++ [byte]))
    rw [drain_eq_bounded hshort] at hrest
    show (nextRecogniser.drain s (p ++ [byte])).1 ++
      nextRecogniser.reads _ _ (byBytes x ++ more) = _
    rw [drain_eq_bounded hshort, hrest, hsplit,
      Recogniser.drain_append boundedRecogniser_stable s (p ++ [byte]) x, List.append_assoc]

end ByBytes

/-! ### Two cuts -/

/-- A long string `w` after `x` in one read with `past`, and all other bytes
one by one. -/
def cutAround (x w past rest : Bytes) : List Bytes :=
  byBytes (x ++ w.take 2) ++ (w.drop 2 ++ past) :: byBytes rest

theorem flatten_cutAround (x w past rest : Bytes) :
    (cutAround x w past rest).flatten = x ++ w ++ (past ++ rest) := by
  rw [cutAround, List.flatten_append, List.flatten_cons, flatten_byBytes, flatten_byBytes,
    List.append_assoc x, List.append_assoc (w.drop 2), List.append_assoc x, ← List.append_assoc _ _
    (past ++ rest), List.take_append_drop]

theorem length_le_of_mem_byBytes {x read : Bytes} (h : read ∈ byBytes x) : read.length ≤ 1 := by
  obtain ⟨byte, -, rfl⟩ := List.mem_map.mp h
  exact le_rfl

section Cuts

variable {x v w past rest : Bytes}

/-- All reads of a cut are short. -/
theorem length_le_of_mem_cutAround (hw : w.length ≤ kInputStringSequenceBytes)
    (hpast : past.length ≤ kInputSequenceBytes) {read : Bytes}
    (h : read ∈ cutAround x w past rest) :
    read.length ≤ kInputBufferBytes - kInputStringSequenceBytes := by
  rcases List.mem_append.mp h with hbefore | hmore
  · exact (length_le_of_mem_byBytes hbefore).trans (by decide)
  · rcases List.mem_cons.mp hmore with rfl | hafter
    · simp only [kInputBufferBytes, kInputStringSequenceBytes, kInputSequenceBytes] at *
      rw [List.length_append, List.length_drop]
      omega
    · exact (length_le_of_mem_byBytes hafter).trans (by decide)

/-- The tokens of bytes that come one by one where nothing is pending. -/
def tokensOf (x : Bytes) : List TerminalInputToken := (boundedRecogniser.drain .plain x).1

/-- What a cut gives when its long read leaves nothing pending. -/
theorem reads_cutAround {before tokens : List TerminalInputToken}
    (hbefore : boundedRecogniser.drain .plain (x ++ w.take 2) = (before, .plain, w.take 2))
    (hlong : nextRecogniser.drain .plain (w ++ past) = (tokens, .plain, [])) :
    nextRecogniser.reads .plain [] (cutAround x w past rest) =
      before ++ (tokens ++ tokensOf rest) := by
  have hread : w.take 2 ++ (w.drop 2 ++ past) = w ++ past := by
    rw [← List.append_assoc, List.take_append_drop]
  have hrest := @reads_byBytes .plain [] rest [] (step_quiet (.inl rfl))
  rw [List.append_nil] at hrest
  rw [cutAround, reads_byBytes _ (step_quiet (.inl rfl)), List.nil_append, hbefore,
    Recogniser.reads, hread, hlong, hrest, Recogniser.reads, List.append_nil]
  rfl

/-- A byte of text. -/
theorem tokensOf_text {byte : UInt8} (h : byte ≠ 0x1b) (rest : Bytes) :
    tokensOf (byte :: rest) = ⟨.text, [byte], false⟩ :: tokensOf rest := by
  have hverdict : boundedVerdict (byte :: rest) = .token .text 1 := by
    cases rest with
    | nil => simp [boundedVerdict, startsStringSequence, nextVerdict, h]
    | cons next rest => simp [boundedVerdict, startsStringSequence, nextVerdict, h]
  have hstep : boundedRecogniser.step .plain (byte :: rest) =
      some ([⟨.text, [byte], false⟩], .plain, rest) := by
    show plainStep boundedVerdict (byte :: rest) = _
    rw [plainStep, hverdict]
    rfl
  rw [tokensOf, Recogniser.drain_of_some hstep]
  rfl

/-- An Escape before two others. -/
theorem tokensOf_escape (rest : Bytes) :
    tokensOf (0x1b :: 0x1b :: 0x1b :: rest) =
      ⟨.escape, [], false⟩ :: tokensOf (0x1b :: 0x1b :: rest) := by
  have hstep : boundedRecogniser.step .plain (0x1b :: 0x1b :: 0x1b :: rest) =
      some ([⟨.escape, [], false⟩], .plain, 0x1b :: 0x1b :: rest) := rfl
  rw [tokensOf, Recogniser.drain_of_some hstep]
  rfl

end Cuts

/-! ### What does not stay pending -/

/-- What does not stay pending has a byte that is no Escape, or three that
are. -/
theorem exists_of_not_quiet {tail : Bytes} (h : ¬Quiet tail) :
    (∃ escapes byte rest, Quiet escapes ∧ byte ≠ 0x1b ∧ tail = escapes ++ byte :: rest) ∨
      ∃ rest, tail = 0x1b :: 0x1b :: 0x1b :: rest := by
  match tail with
  | [] => exact absurd (.inl rfl) h
  | first :: tail =>
    by_cases hfirst : first = 0x1b
    · obtain rfl := hfirst
      match tail with
      | [] => exact absurd (.inr (.inl rfl)) h
      | second :: tail =>
        by_cases hsecond : second = 0x1b
        · obtain rfl := hsecond
          match tail with
          | [] => exact absurd (.inr (.inr rfl)) h
          | third :: rest =>
            by_cases hthird : third = 0x1b
            · exact .inr ⟨rest, by rw [hthird]⟩
            · exact .inl ⟨[0x1b, 0x1b], third, rest, .inr (.inr rfl), hthird, rfl⟩
        · exact .inl ⟨[0x1b], second, tail, .inr (.inl rfl), hsecond, rfl⟩
    · exact .inl ⟨[], first, tail, .inl rfl, hfirst, rfl⟩

theorem Quiet.length_le {p : Bytes} (h : Quiet p) : p.length ≤ 2 := by
  rcases h with rfl | rfl | rfl <;> decide

/-! ### The streams whose tokens are the same -/

/-- All cuts of the stream into reads that do not overflow the buffer give the
same tokens. -/
def SameTokens (stream : Bytes) : Prop :=
  ∀ reads reads' : List Bytes, reads.flatten = stream → reads'.flatten = stream →
    TerminalInputDecoder.Fits {} reads → TerminalInputDecoder.Fits {} reads' →
    TerminalInputDecoder.decode {} reads = TerminalInputDecoder.decode {} reads'

/-- A token of the stream is a string sequence past the bound, and what
follows the bound does not stay pending. -/
def Overlong (stream : Bytes) : Prop :=
  ∃ v, boundedRecogniser.Reaches .plain stream .plain v ∧ LongString v ∧
    ¬Quiet (v.drop kInputStringSequenceBytes)

theorem settled_fresh : TerminalInputDecoder.Settled {} where
  ready := rfl
  fits := rfl
  waits := rfl

section Overlong

variable {x w : Bytes} {before : List TerminalInputToken}

/-- Two cuts that are not the same. -/
theorem not_sameTokens_of_cuts {stream past past' rest rest' : Bytes}
    (hw : w.length ≤ kInputStringSequenceBytes) (hpast : past.length ≤ kInputSequenceBytes)
    (hpast' : past'.length ≤ kInputSequenceBytes) (hstream : x ++ w ++ (past ++ rest) = stream)
    (hstream' : x ++ w ++ (past' ++ rest') = stream)
    (hne : nextRecogniser.reads .plain [] (cutAround x w past rest) ≠
      nextRecogniser.reads .plain [] (cutAround x w past' rest')) : ¬SameTokens stream := by
  intro hsame
  have hfits := TerminalInputDecoder.fits_of_short settled_fresh
    fun read hread => @length_le_of_mem_cutAround x w past rest hw hpast read hread
  have hfits' := TerminalInputDecoder.fits_of_short settled_fresh
    fun read hread => @length_le_of_mem_cutAround x w past' rest' hw hpast' read hread
  have htokens := hsame _ _ ((flatten_cutAround x w past rest).trans hstream)
    ((flatten_cutAround x w past' rest').trans hstream') hfits hfits'
  rw [TerminalInputDecoder.decode_eq_reads settled_fresh hfits,
    TerminalInputDecoder.decode_eq_reads settled_fresh hfits'] at htokens
  exact hne htokens

variable (hbefore : boundedRecogniser.drain .plain (x ++ w.take 2) = (before, .plain, w.take 2))
  (hstring : startsStringSequence w = true) (hlen : w.length = kInputStringSequenceBytes)
  (hopen : completeStringSequenceBytes w = 0)

include hstring hlen hopen in
/-- Escapes in the read are dropped with the string. -/
theorem drain_escapes {escapes : Bytes} (hquiet : Quiet escapes) :
    nextRecogniser.drain .plain (w ++ escapes) = ([], .plain, []) := by
  refine drain_quiet ?_ ?_ ?_ ?_
  · rwa [startsStringSequence_append escapes (two_le_of_startsStringSequence hstring)]
  · rw [List.length_append, hlen]
    exact Nat.le_add_right _ _
  · rwa [List.take_left' hlen]
  · rwa [List.drop_left' hlen]

include hstring hlen hopen in
/-- So is the first byte after them, unless it ends the string. -/
theorem drain_byte {escapes : Bytes} {byte : UInt8} (hquiet : Quiet escapes) :
    ∃ tokens, nextRecogniser.drain .plain (w ++ (escapes ++ [byte])) = (tokens, .plain, []) ∧
      ∀ token ∈ tokens, token.kind = .sequence := by
  have hstring' : startsStringSequence (w ++ (escapes ++ [byte])) = true := by
    rwa [startsStringSequence_append _ (two_le_of_startsStringSequence hstring)]
  have hlong : kInputStringSequenceBytes ≤ (w ++ (escapes ++ [byte])).length := by
    rw [List.length_append, hlen]
    exact Nat.le_add_right _ _
  have hopen' : completeStringSequenceBytes
      ((w ++ (escapes ++ [byte])).take kInputStringSequenceBytes) = 0 := by
    rwa [List.take_left' hlen]
  rcases completeStringSequenceBytes_concat hlong hopen' hquiet (List.drop_left' hlen) with
    hzero | hend
  · exact ⟨[], drain_dropped hstring' hlong hzero, fun token h => absurd h List.not_mem_nil⟩
  · refine ⟨_, drain_terminated hstring' hend, fun token h => ?_⟩
    rw [List.mem_singleton.mp h]

include hbefore hstring hlen hopen

/-- A byte after the bound is text, or lost with the string. -/
theorem not_sameTokens_of_byte {escapes rest : Bytes} {byte : UInt8} (hquiet : Quiet escapes)
    (hbyte : byte ≠ 0x1b) : ¬SameTokens (x ++ w ++ (escapes ++ byte :: rest)) := by
  obtain ⟨tokens, hdrain, hkinds⟩ := @drain_byte w hstring hlen hopen escapes byte hquiet
  have hshort := hquiet.length_le
  have hconcat : (escapes ++ [byte]) ++ rest = escapes ++ byte :: rest := by
    rw [List.append_assoc]
    rfl
  have hsize : (escapes ++ [byte]).length ≤ kInputSequenceBytes := by
    rw [List.length_append, kInputSequenceBytes, List.length_singleton]
    omega
  refine not_sameTokens_of_cuts hlen.le (hshort.trans (by decide)) hsize rfl
    (congrArg (x ++ w ++ ·) hconcat) ?_
  rw [reads_cutAround hbefore (drain_escapes hstring hlen hopen hquiet),
    reads_cutAround hbefore hdrain, tokensOf_text hbyte]
  intro hsame
  -- one cut has a text where the other has sequences
  have htokens : [⟨.text, [byte], false⟩] = tokens :=
    List.append_cancel_right (List.append_cancel_left hsame)
  have hkind := hkinds ⟨.text, [byte], false⟩ (htokens ▸ List.mem_singleton_self _)
  exact TerminalInputTokenKind.noConfusion hkind

/-- Of three Escapes after the bound the first is one, or lost. -/
theorem not_sameTokens_of_escapes (rest : Bytes) :
    ¬SameTokens (x ++ w ++ 0x1b :: 0x1b :: 0x1b :: rest) := by
  have hnone := drain_escapes hstring hlen hopen (.inl rfl)
  have hone := drain_escapes hstring hlen hopen (.inr (.inl rfl))
  refine @not_sameTokens_of_cuts x w _ [] [0x1b] _ (0x1b :: 0x1b :: rest) hlen.le (by decide)
    (by decide) rfl rfl ?_
  rw [reads_cutAround hbefore hnone, reads_cutAround hbefore hone, List.nil_append, List.nil_append,
    tokensOf_escape]
  intro hsame
  have hsize := congrArg List.length (List.append_cancel_left hsame)
  exact absurd hsize (Nat.succ_ne_self _)

end Overlong

/-- **Past the bound** the reads matter. -/
theorem not_sameTokens_of_overlong {stream : Bytes} (h : Overlong stream) : ¬SameTokens stream := by
  obtain ⟨v, hreaches, ⟨hstring, hlong, hopen⟩, htail⟩ := h
  obtain ⟨x, rfl⟩ := suffix_of_reaches hreaches
  obtain ⟨before, hbefore⟩ := drain_before_string hstring hreaches
  have hlen : (v.take kInputStringSequenceBytes).length = kInputStringSequenceBytes := by
    rw [List.length_take, min_eq_left hlong.le]
  have htwo : (v.take kInputStringSequenceBytes).take 2 = v.take 2 := by
    rw [List.take_take]
    rfl
  have hstring' : startsStringSequence (v.take kInputStringSequenceBytes) = true := by
    rw [← List.take_append_drop kInputStringSequenceBytes v, startsStringSequence_append _
      (by rw [hlen]; decide)] at hstring
    exact hstring
  rw [← htwo] at hbefore
  rw [← List.take_append_drop kInputStringSequenceBytes v, ← List.append_assoc]
  rcases exists_of_not_quiet htail with ⟨escapes, byte, rest, hquiet, hbyte, heq⟩ | ⟨rest, heq⟩
  · rw [heq]
    exact not_sameTokens_of_byte hbefore hstring' hlen hopen hquiet hbyte
  · rw [heq]
    exact not_sameTokens_of_escapes hbefore hstring' hlen hopen rest

/-- **The tokens are the same however a stream is cut** exactly when no string
sequence of it runs past the bound into what does not stay pending. -/
theorem sameTokens_iff (stream : Bytes) : SameTokens stream ↔ ¬Overlong stream := by
  refine ⟨fun hsame hover => not_sameTokens_of_overlong hover hsame, fun hnone => ?_⟩
  intro reads reads' hreads hreads' hfits hfits'
  have htame : Tame .plain stream := fun v hreaches hlong =>
    not_not.mp fun htail => hnone ⟨v, hreaches, hlong, htail⟩
  have hall {cut : List Bytes} (hcut : cut.flatten = stream)
      (hfit : TerminalInputDecoder.Fits {} cut) :
      TerminalInputDecoder.decode {} cut = (boundedRecogniser.drain .plain stream).1 := by
    have htame' : Tame .plain ([] ++ cut.flatten) := by
      rw [List.nil_append, hcut]
      exact htame
    rw [TerminalInputDecoder.decode_eq_reads settled_fresh hfit]
    show nextRecogniser.reads .plain [] cut = _
    rw [reads_of_tame (step_quiet (.inl rfl)) htame', List.nil_append, hcut]
  rw [hall hreads hfits, hall hreads' hfits']

/-- A title that does not end is dropped with a byte past the bound, or
without it. -/
theorem not_sameTokens_title {body : Bytes} (hlen : body.length = kInputStringSequenceBytes - 2)
    (hopen : terminated body = none) :
    ¬SameTokens (0x1b :: ch ']' :: body ++ [ch 'x']) := by
  have hbefore : boundedRecogniser.drain .plain ([] ++ (0x1b :: ch ']' :: body).take 2) =
      ([], .plain, (0x1b :: ch ']' :: body).take 2) := Recogniser.drain_of_none rfl
  have hwhole : (0x1b :: ch ']' :: body).length = kInputStringSequenceBytes :=
    congrArg (· + 2) hlen
  have hzero : completeStringSequenceBytes (0x1b :: ch ']' :: body) = 0 := by
    have hdrop : (0x1b :: ch ']' :: body).drop 2 = body := rfl
    rw [completeStringSequenceBytes, hdrop, hopen]
  exact @not_sameTokens_of_byte [] (0x1b :: ch ']' :: body) [] hbefore rfl hwhole hzero [] []
    (ch 'x') (.inl rfl) (by decide)

theorem terminated_replicate (n : Nat) : terminated (List.replicate n (ch 'x')) = none := by
  induction n with
  | zero => rfl
  | succ n ih =>
    rw [List.replicate_succ, terminated, if_neg (by decide),
      if_neg (fun h => absurd h.1 (by decide)), ih]
    rfl

theorem unterminated_title_cut :
    ¬SameTokens (0x1b :: ch ']' :: List.replicate 4094 (ch 'x') ++ [ch 'x']) :=
  not_sameTokens_title List.length_replicate (terminated_replicate 4094)

end UAgent
