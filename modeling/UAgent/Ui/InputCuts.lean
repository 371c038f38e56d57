/-
UAgent/Ui/InputCuts.lean

The reads in which the bytes of a terminal come in.  With string sequences
cut at their bound the recogniser is stable, and the reads would not matter.
The source drops a string sequence past the bound with everything that is
pending, so that what follows it is lost with it or not, as the reads have it.

Main result: `reads_of_tame`.  The reads do not matter when every string
sequence without a terminator within the bound is followed by nothing but one
or two Escapes, which stay pending.
-/
import UAgent.Ui.InputReads

namespace UAgent

open Bytes

/-! ### The bounded recogniser -/

section Bounded

variable {s s' : InputMode} {x r v : Bytes} {o : List TerminalInputToken}

theorem plainStep_append {verdict : Bytes → InputVerdict} (q : Bytes)
    (hsame : verdict (x ++ q) = verdict x) (hle : (verdict x).bytes ≤ x.length)
    (h : plainStep verdict x = some (o, s', r)) :
    plainStep verdict (x ++ q) = some (o, s', r ++ q) := by
  rw [plainStep] at h ⊢
  rw [hsame]
  cases hverdict : verdict x with
  | wait => simp [hverdict] at h
  | token kind bytes =>
    have hbytes : bytes ≤ x.length := by rwa [hverdict] at hle
    simp only [hverdict, Option.some_inj, Prod.mk.injEq] at h
    obtain ⟨rfl, rfl, rfl⟩ := h
    simp only [List.take_append_of_le_length hbytes, List.drop_append_of_le_length hbytes]
  | startPaste =>
    have hbytes : kPasteStart.length ≤ x.length := by rwa [hverdict] at hle
    simp only [hverdict, Option.some_inj, Prod.mk.injEq] at h
    obtain ⟨rfl, rfl, rfl⟩ := h
    simp only [List.drop_append_of_le_length hbytes]
  | drop bytes =>
    have hbytes : bytes ≤ x.length := by rwa [hverdict] at hle
    simp only [hverdict, Option.some_inj, Prod.mk.injEq] at h
    obtain ⟨rfl, rfl, rfl⟩ := h
    simp only [List.drop_append_of_le_length hbytes]

theorem pasteStep_append {text : Bytes} {overflow : Bool} (q : Bytes)
    (h : pasteStep text overflow x = some (o, s', r)) :
    pasteStep text overflow (x ++ q) = some (o, s', r ++ q) := by
  unfold pasteStep at h ⊢
  by_cases hend : kPasteEnd.isPrefixOf x = true
  · have hlead := List.isPrefixOf_iff_prefix.mp hend
    rw [if_pos hend] at h
    rw [if_pos (List.isPrefixOf_iff_prefix.mpr (hlead.trans (List.prefix_append x q))),
      List.drop_append_of_le_length hlead.length_le]
    simp only [Option.some_inj, Prod.mk.injEq] at h ⊢
    exact ⟨h.1, h.2.1, by rw [h.2.2]⟩
  · rw [if_neg hend] at h
    cases x with
    | nil => cases h
    | cons byte rest =>
      dsimp only at h
      split_ifs at h with hheld
      -- what is no beginning of the end stays none
      have hend' : ¬kPasteEnd.isPrefixOf (byte :: rest ++ q) = true := by
        intro hlong
        have hlead := List.isPrefixOf_iff_prefix.mp hlong
        rcases le_total kPasteEnd.length (byte :: rest).length with hle | hle
        · exact hend (List.isPrefixOf_iff_prefix.mpr
            (List.prefix_of_prefix_length_le hlead (List.prefix_append _ q) hle))
        · exact hheld (List.isPrefixOf_iff_prefix.mpr
            (List.prefix_of_prefix_length_le (List.prefix_append _ q) hlead hle))
      have hheld' : ¬(byte :: (rest ++ q)).isPrefixOf kPasteEnd = true := fun hlong =>
        hheld (List.isPrefixOf_iff_prefix.mpr
          ((List.prefix_append (byte :: rest) q).trans (List.isPrefixOf_iff_prefix.mp hlong)))
      rw [if_neg hend']
      simp only [List.cons_append, if_neg hheld', Option.some_inj, Prod.mk.injEq] at h ⊢
      exact ⟨h.1, h.2.1, by rw [h.2.2]⟩

/-- **The bound makes the recogniser stable.** -/
theorem boundedRecogniser_stable : boundedRecogniser.Stable := by
  intro s x o s' r h y
  cases s with
  | plain =>
    obtain ⟨hwait, -⟩ := plainStep_eq_some h
    rcases boundedVerdict_extends x y with hsame | ⟨hshort, -⟩
    · exact plainStep_append y hsame (boundedVerdict_takes x hwait).2 h
    · exact absurd hshort hwait
  | paste text overflow => exact pasteStep_append y h

/-- A step takes the front of the input. -/
theorem step_suffix (h : boundedRecogniser.step s x = some (o, s', r)) : r <:+ x := by
  cases s with
  | plain =>
    obtain ⟨-, rfl⟩ := plainStep_eq_some h
    exact List.drop_suffix _ x
  | paste text overflow =>
    have h' : pasteStep text overflow x = some (o, s', r) := h
    unfold pasteStep at h'
    split_ifs at h'
    · simp only [Option.some_inj, Prod.mk.injEq] at h'
      rw [← h'.2.2]
      exact List.drop_suffix _ x
    · cases x with
      | nil => cases h'
      | cons byte rest =>
        dsimp only at h'
        split_ifs at h'
        simp only [Option.some_inj, Prod.mk.injEq] at h'
        rw [← h'.2.2]
        exact List.suffix_cons byte rest

theorem suffix_of_reaches {t : InputMode} (h : boundedRecogniser.Reaches s x t v) : v <:+ x := by
  induction h with
  | here => exact List.suffix_rfl
  | step hstep _ ih => exact ih.trans (step_suffix hstep)

/-- Where a string sequence starts, its first two bytes are enough to end what
comes before it. -/
theorem step_before_string {x' : Bytes} (hstring : startsStringSequence v = true)
    (h : boundedRecogniser.step s (x ++ v) = some (o, s', x' ++ v)) :
    boundedRecogniser.step s (x ++ v.take 2) = some (o, s', x' ++ v.take 2) := by
  have hsplit : x ++ v = (x ++ v.take 2) ++ v.drop 2 := by
    rw [List.append_assoc, List.take_append_drop]
  have hlen := boundedRecogniser.shrinks h
  rw [List.length_append, List.length_append] at hlen
  cases hstep : boundedRecogniser.step s (x ++ v.take 2) with
  | some taken =>
    obtain ⟨o₂, s₂, r₂⟩ := taken
    have hmore := boundedRecogniser_stable _ _ _ _ _ hstep (v.drop 2)
    rw [← hsplit, h, Option.some_inj, Prod.mk.injEq, Prod.mk.injEq] at hmore
    obtain ⟨rfl, rfl, hrest⟩ := hmore
    have hcancel : x' ++ v.take 2 = r₂ := by
      apply @List.append_cancel_right _ _ (v.drop 2)
      rw [List.append_assoc, List.take_append_drop, hrest]
    rw [hcancel]
  | none =>
    exfalso
    match v, hstring with
    | front :: key :: v, hstring =>
      have htwo : (x ++ [front, key]).length = x.length + 2 := List.length_append
      cases s with
      | plain =>
        have hwait := verdict_of_plainStep_none hstep
        obtain ⟨hnot, hrest⟩ := plainStep_eq_some h
        have hext := boundedVerdict_extends (x ++ [front, key]) v
        rw [show (x ++ [front, key]) ++ v = x ++ front :: key :: v by
          rw [List.append_assoc]; rfl] at hext
        rcases hext with hsame | ⟨-, hlt⟩
        · exact hnot (hsame.trans hwait)
        · have hdrop := congrArg List.length hrest
          simp only [List.length_drop, List.length_append, List.length_cons] at hdrop
          rw [htwo] at hlt
          omega
      | paste text overflow =>
        -- the end of a paste has an Escape in front only
        have hheld := List.isPrefixOf_iff_prefix.mp (held_of_pasteStep_none hstep)
        obtain rfl : front = 0x1b := of_decide_eq_true (Bool.and_eq_true_iff.mp hstring).1
        cases x with
        | nil =>
          rw [List.length_nil] at hlen
          omega
        | cons byte x =>
          obtain ⟨-, hrest⟩ := List.cons_prefix_cons.mp hheld
          have hmem : (0x1b : UInt8) ∈ lit "[201~" :=
            hrest.subset (List.mem_append_right _ List.mem_cons_self)
          exact absurd hmem (by decide)

/-- What comes before a string sequence is decided with its first two bytes. -/
theorem drain_before_string (hstring : startsStringSequence v = true)
    (h : boundedRecogniser.Reaches s (x ++ v) .plain v) :
    ∃ tokens, boundedRecogniser.drain s (x ++ v.take 2) = (tokens, .plain, v.take 2) := by
  induction hlen : x.length using Nat.strongRecOn generalizing s x with
  | _ n ih =>
    cases hx : x with
    | nil =>
      rw [hx, List.nil_append] at h
      have hs : s = .plain := by
        cases h with
        | here => rfl
        | step hstep hrest =>
          exact absurd (boundedRecogniser.shrinks hstep) (not_lt.mpr hrest.length_le)
      have hwait : boundedRecogniser.step .plain (v.take 2) = none := by
        match v, hstring with
        | front :: key :: v, hstring =>
          have hstring' : startsStringSequence [front, key] = true := hstring
          show plainStep boundedVerdict [front, key] = none
          rw [plainStep, boundedVerdict, if_pos hstring']
          rfl
      rw [hs]
      exact ⟨[], Recogniser.drain_of_none hwait⟩
    | cons byte rest =>
      rw [← hx]
      have hlt : v.length < (x ++ v).length := by
        rw [hx, List.length_append, List.length_cons]
        omega
      obtain ⟨o, s', r, hstep, hrest⟩ := h.first hlt
      obtain ⟨x', rfl⟩ := suffix_of_reaches hrest
      have hshorter : x'.length < x.length := by
        have hshrinks := boundedRecogniser.shrinks hstep
        rw [List.length_append, List.length_append] at hshrinks
        omega
      obtain ⟨tokens, htokens⟩ := ih x'.length (hlen ▸ hshorter) hrest rfl
      have hfirst := step_before_string hstring hstep
      exact ⟨o ++ tokens, by rw [Recogniser.drain_of_some hfirst, htokens]⟩

end Bounded

/-! ### Long strings -/

/-- Input that stays pending: one or two Escapes, or none. -/
def Quiet (p : Bytes) : Prop := p = [] ∨ p = [0x1b] ∨ p = [0x1b, 0x1b]

section Long

variable {s : InputMode} {p q x : Bytes}

theorem Quiet.eq_escape (h : Quiet p) {byte : UInt8} (hmem : byte ∈ p) : byte = 0x1b := by
  rcases h with rfl | rfl | rfl <;> simp at hmem <;> exact hmem

theorem Quiet.left (h : Quiet (p ++ q)) : Quiet p := by
  rcases h with h | h | h
  · exact .inl (List.append_eq_nil_iff.mp h).1
  · match p, q, h with
    | [], _, _ => exact .inl rfl
    | [_], [], rfl => exact .inr (.inl rfl)
  · match p, q, h with
    | [], _, _ => exact .inl rfl
    | [_], [_], rfl => exact .inr (.inl rfl)
    | [_, _], [], rfl => exact .inr (.inr rfl)

theorem Quiet.right (h : Quiet (p ++ q)) : Quiet q := by
  rcases h with h | h | h
  · exact .inl (List.append_eq_nil_iff.mp h).2
  · match p, q, h with
    | [], _, rfl => exact .inr (.inl rfl)
    | [_], [], rfl => exact .inl rfl
  · match p, q, h with
    | [], _, rfl => exact .inr (.inr rfl)
    | [_], [_], rfl => exact .inr (.inl rfl)
    | [_, _], [], rfl => exact .inl rfl

theorem step_quiet (h : Quiet p) : nextRecogniser.step .plain p = none := by
  rcases h with rfl | rfl | rfl <;> rfl

theorem bounded_step_quiet (h : Quiet p) : boundedRecogniser.step .plain p = none := by
  rcases h with rfl | rfl | rfl <;> rfl

theorem reads_quiet {reads : List Bytes} (h : Quiet (p ++ reads.flatten)) :
    nextRecogniser.reads .plain p reads = [] := by
  induction reads generalizing p with
  | nil => rfl
  | cons read reads ih =>
    rw [List.flatten_cons, ← List.append_assoc] at h
    rw [Recogniser.reads, Recogniser.drain_of_none (step_quiet h.left)]
    exact ih h

theorem LongString.append (h : LongString x) (q : Bytes) : LongString (x ++ q) := by
  obtain ⟨hstring, hlong, hopen⟩ := h
  refine ⟨?_, ?_, ?_⟩
  · rwa [startsStringSequence_append q (two_le_of_startsStringSequence hstring)]
  · rw [List.length_append]
    exact hlong.trans_le (Nat.le_add_right _ _)
  · rwa [List.take_append_of_le_length hlong.le]

/-- But for long strings the source is at the bound. -/
theorem step_eq_bounded (h : s = .plain → ¬LongString x) :
    nextRecogniser.step s x = boundedRecogniser.step s x := by
  cases s with
  | plain =>
    show plainStep nextVerdict x = plainStep boundedVerdict x
    rw [plainStep, plainStep, nextVerdict_eq_boundedVerdict (h rfl)]
  | paste text overflow => rfl

theorem bounded_step_longString (h : LongString x) :
    boundedRecogniser.step .plain x = some ([], .plain, x.drop kInputStringSequenceBytes) := by
  show plainStep boundedVerdict x = _
  rw [plainStep, boundedVerdict_of_longString h]

theorem terminated_pos {n : Nat} (h : terminated p = some n) : 0 < n := by
  cases p with
  | nil => cases h
  | cons first rest =>
    rw [terminated] at h
    split_ifs at h
    · obtain rfl := Option.some_inj.mp h
      exact Nat.one_pos
    · obtain rfl := Option.some_inj.mp h
      exact Nat.two_pos
    · obtain ⟨m, -, rfl⟩ := Option.map_eq_some_iff.mp h
      exact Nat.succ_pos m

/-- The last byte of a terminator is no Escape. -/
theorem terminated_last {n : Nat} (h : terminated p = some n) :
    ∃ byte, p[n - 1]? = some byte ∧ byte ≠ 0x1b := by
  induction p generalizing n with
  | nil => cases h
  | cons first rest ih =>
    rw [terminated] at h
    split_ifs at h with hbel hst
    · obtain rfl := Option.some_inj.mp h
      exact ⟨first, rfl, by rw [hbel]; decide⟩
    · obtain rfl := Option.some_inj.mp h
      cases rest with
      | nil => exact absurd hst.2 (by simp)
      | cons second rest =>
        obtain rfl := Option.some_inj.mp hst.2
        exact ⟨ch '\\', rfl, by decide⟩
    · obtain ⟨m, hm, rfl⟩ := Option.map_eq_some_iff.mp h
      obtain ⟨byte, hbyte, hnot⟩ := ih hm
      refine ⟨byte, ?_, hnot⟩
      obtain ⟨k, rfl⟩ := Nat.exists_eq_succ_of_ne_zero (Nat.ne_of_gt (terminated_pos hm))
      exact hbyte

theorem completeStringSequenceBytes_last (h : completeStringSequenceBytes p ≠ 0) :
    ∃ byte, p[completeStringSequenceBytes p - 1]? = some byte ∧ byte ≠ 0x1b := by
  cases hend : terminated (p.drop 2) with
  | none => exact absurd (by rw [completeStringSequenceBytes, hend]) h
  | some n =>
    have hbytes : completeStringSequenceBytes p = n + 2 := by
      rw [completeStringSequenceBytes, hend]
    obtain ⟨byte, hbyte, hnot⟩ := terminated_last hend
    have hpos := terminated_pos hend
    refine ⟨byte, ?_, hnot⟩
    rw [List.getElem?_drop] at hbyte
    rw [hbytes, show n + 2 - 1 = 2 + (n - 1) by omega]
    exact hbyte

/-- A terminator past the bound ends in a byte there that is no Escape. -/
theorem completeStringSequenceBytes_past (hlen : kInputStringSequenceBytes ≤ x.length)
    (hopen : completeStringSequenceBytes (x.take kInputStringSequenceBytes) = 0)
    (h : completeStringSequenceBytes x ≠ 0) :
    ∃ i byte, (x.drop kInputStringSequenceBytes)[i]? = some byte ∧ byte ≠ 0x1b ∧
      completeStringSequenceBytes x = kInputStringSequenceBytes + i + 1 := by
  have htake : (x.take kInputStringSequenceBytes).length = kInputStringSequenceBytes := by
    rw [List.length_take, min_eq_left hlen]
  have hlong : kInputStringSequenceBytes < completeStringSequenceBytes x := by
    have happend := @completeStringSequenceBytes_append (x.take kInputStringSequenceBytes)
      (x.drop kInputStringSequenceBytes) (by rw [htake]; decide)
    rw [List.take_append_drop, htake] at happend
    rcases happend with hsame | ⟨-, hlt⟩
    · exact absurd (hsame.trans hopen) h
    · exact hlt
  obtain ⟨byte, hlast, hnot⟩ := completeStringSequenceBytes_last h
  obtain ⟨i, hi⟩ := Nat.exists_eq_add_of_lt hlong
  refine ⟨i, byte, ?_, hnot, hi⟩
  rw [hi, Nat.add_sub_cancel] at hlast
  rw [List.getElem?_drop]
  exact hlast

/-- Escapes past the bound end no string. -/
theorem completeStringSequenceBytes_quiet (hlen : kInputStringSequenceBytes ≤ x.length)
    (hopen : completeStringSequenceBytes (x.take kInputStringSequenceBytes) = 0)
    (hquiet : Quiet (x.drop kInputStringSequenceBytes)) : completeStringSequenceBytes x = 0 := by
  by_contra h
  obtain ⟨i, byte, hbyte, hnot, -⟩ := completeStringSequenceBytes_past hlen hopen h
  exact hnot (hquiet.eq_escape (List.mem_of_getElem? hbyte))

/-- The first byte past the bound that is no Escape may end one. -/
theorem completeStringSequenceBytes_concat {byte : UInt8}
    (hlen : kInputStringSequenceBytes ≤ x.length)
    (hopen : completeStringSequenceBytes (x.take kInputStringSequenceBytes) = 0)
    (hquiet : Quiet p) (hpast : x.drop kInputStringSequenceBytes = p ++ [byte]) :
    completeStringSequenceBytes x = 0 ∨ completeStringSequenceBytes x = x.length := by
  by_cases hzero : completeStringSequenceBytes x = 0
  · exact .inl hzero
  obtain ⟨i, last, hlast, hnot, hi⟩ := completeStringSequenceBytes_past hlen hopen hzero
  have hsize := congrArg List.length hpast
  rw [List.length_drop, List.length_append, List.length_singleton] at hsize
  have hle : i < (x.drop kInputStringSequenceBytes).length :=
    (List.getElem?_eq_some_iff.mp hlast).1
  rw [List.length_drop] at hle
  have hge : ¬i < p.length := by
    intro hlt
    rw [hpast, List.getElem?_append_left hlt] at hlast
    exact hnot (hquiet.eq_escape (List.mem_of_getElem? hlast))
  exact .inr (by omega)

/-- Without a terminator all that is pending is dropped. -/
theorem drain_dropped (hstring : startsStringSequence x = true)
    (hlen : kInputStringSequenceBytes ≤ x.length) (hopen : completeStringSequenceBytes x = 0) :
    nextRecogniser.drain .plain x = ([], .plain, []) := by
  have hstep : nextRecogniser.step .plain x = some ([], .plain, []) := by
    show plainStep nextVerdict x = _
    rw [plainStep, nextVerdict_of_string hstring, stringVerdict, if_pos hopen,
      if_neg (not_lt.mpr hlen)]
    simp only [List.drop_length]
  rw [Recogniser.drain_of_some hstep, Recogniser.drain_of_none (step_quiet (.inl rfl))]
  rfl

/-- With one at its end it is one sequence. -/
theorem drain_terminated (hstring : startsStringSequence x = true)
    (hend : completeStringSequenceBytes x = x.length) :
    nextRecogniser.drain .plain x = ([⟨.sequence, x, false⟩], .plain, []) := by
  have hpos : ¬completeStringSequenceBytes x = 0 := by
    rw [hend]
    exact Nat.ne_of_gt (Nat.lt_of_lt_of_le Nat.two_pos (two_le_of_startsStringSequence hstring))
  have hstep : nextRecogniser.step .plain x = some ([⟨.sequence, x, false⟩], .plain, []) := by
    show plainStep nextVerdict x = _
    rw [plainStep, nextVerdict_of_string hstring, stringVerdict, if_neg hpos, hend]
    simp [tokenOf]
  rw [Recogniser.drain_of_some hstep, Recogniser.drain_of_none (step_quiet (.inl rfl))]
  rfl

/-- A string sequence followed by Escapes is dropped with them. -/
theorem drain_quiet (hstring : startsStringSequence x = true)
    (hlen : kInputStringSequenceBytes ≤ x.length)
    (hopen : completeStringSequenceBytes (x.take kInputStringSequenceBytes) = 0)
    (hquiet : Quiet (x.drop kInputStringSequenceBytes)) :
    nextRecogniser.drain .plain x = ([], .plain, []) := by
  exact drain_dropped hstring hlen (completeStringSequenceBytes_quiet hlen hopen hquiet)

end Long

/-! ### Reads that do not matter -/

/-- Every long string on the way is followed by what stays pending. -/
def Tame (s : InputMode) (x : Bytes) : Prop :=
  ∀ v, boundedRecogniser.Reaches s x .plain v → LongString v →
    Quiet (v.drop kInputStringSequenceBytes)

section Tame

variable {s : InputMode} {p x rest : Bytes}

/-- What waits waits at the bound too. -/
theorem bounded_step_none (h : nextRecogniser.step s p = none) :
    boundedRecogniser.step s p = none := by
  rw [← step_eq_bounded fun _ hlong => ?_]
  · exact h
  · exact absurd hlong.2.1 (not_lt.mpr (length_lt_of_step_none h).le)

/-- The steps on what has come so far are those on all of it, or they drop it
where all of it comes to nothing more. -/
theorem drain_of_tame (htame : Tame s (x ++ rest)) :
    (Tame (nextRecogniser.drain s x).2.1 ((nextRecogniser.drain s x).2.2 ++ rest) ∧
      (boundedRecogniser.drain s (x ++ rest)).1 = (nextRecogniser.drain s x).1 ++
        (boundedRecogniser.drain (nextRecogniser.drain s x).2.1
          ((nextRecogniser.drain s x).2.2 ++ rest)).1) ∨
    (nextRecogniser.drain s x).2 = (.plain, []) ∧
      (boundedRecogniser.drain s (x ++ rest)).1 = (nextRecogniser.drain s x).1 ∧ Quiet rest := by
  induction s, x using Recogniser.drain_induction (R := nextRecogniser) with
  | wait s x h =>
    rw [Recogniser.drain_of_none h]
    exact .inl ⟨htame, rfl⟩
  | take s x o s' r h ih =>
    by_cases hlong : s = .plain ∧ LongString x
    · obtain ⟨rfl, hlong⟩ := hlong
      have hmore := hlong.append rest
      have hquiet := htame _ (.here _ _) hmore
      rw [List.drop_append_of_le_length hlong.2.1.le] at hquiet
      have hdrop := hquiet
      rw [← List.drop_append_of_le_length hlong.2.1.le] at hdrop
      rw [drain_quiet hlong.1 hlong.2.1.le hlong.2.2 hquiet.left,
        Recogniser.drain_of_some (bounded_step_longString hmore),
        Recogniser.drain_of_none (bounded_step_quiet hdrop)]
      exact .inr ⟨rfl, rfl, hquiet.right⟩
    · have hstep : boundedRecogniser.step s x = some (o, s', r) := by
        rw [← step_eq_bounded fun hs hl => hlong ⟨hs, hl⟩]
        exact h
      have hmore := boundedRecogniser_stable _ _ _ _ _ hstep rest
      rw [Recogniser.drain_of_some h, Recogniser.drain_of_some hmore]
      rcases ih fun v hv => htame v (.step hmore hv) with ⟨hrest, htokens⟩ | ⟨hleft, htokens, hq⟩
      · refine .inl ⟨hrest, ?_⟩
        show o ++ _ = (o ++ _) ++ _
        rw [htokens, List.append_assoc]
      · refine .inr ⟨hleft, ?_, hq⟩
        show o ++ _ = o ++ _
        rw [htokens]

/-- **Tame input** comes to the same in all reads. -/
theorem reads_of_tame {reads : List Bytes} (hwait : nextRecogniser.step s p = none)
    (htame : Tame s (p ++ reads.flatten)) :
    nextRecogniser.reads s p reads = (boundedRecogniser.drain s (p ++ reads.flatten)).1 := by
  induction reads generalizing s p with
  | nil =>
    rw [List.flatten_nil, List.append_nil, Recogniser.drain_of_none (bounded_step_none hwait)]
    rfl
  | cons read reads ih =>
    rw [List.flatten_cons, ← List.append_assoc] at htame ⊢
    rw [Recogniser.reads]
    rcases drain_of_tame htame with ⟨hrest, htokens⟩ | ⟨hleft, htokens, hq⟩
    · rw [htokens, ih (nextRecogniser.step_drain s _) hrest]
    · rw [htokens, hleft, reads_quiet (by rwa [List.nil_append]), List.append_nil]

end Tame

end UAgent
