/-
UAgent/Ui/MarkdownReplay.lean

Held text that is read again.  A replay may open a span of its own, but that
one holds a character at most, so that two rounds end the loop whatever was
held (`math_replayAll`).

Where no span opens before the end of what is replayed, nothing is lost and
nothing moves (`shows_replayMath`).
-/
import UAgent.Ui.MarkdownProse

namespace UAgent

open Bytes

namespace MdStream

variable (host : MdHost)

/-! ### The loop ends -/

/-- What decides whether a span is open, and what it holds. -/
def spanState (s : MdStream) : Option MathKind × Bytes × Bool × Bool × Bool :=
  (s.math, s.mathText, s.dollar, s.slash, s.mathDollar)

@[simp] theorem spanState_put (s : MdStream) (text : Bytes) :
    (s.put text).spanState = s.spanState := rfl

@[simp] theorem spanState_style (s : MdStream) (style : MdStyle) :
    (s.style style).spanState = s.spanState := rfl

@[simp] theorem spanState_releaseBlanks (s : MdStream) :
    s.releaseBlanks.spanState = s.spanState := by
  unfold releaseBlanks
  split_ifs <;> rfl

@[simp] theorem spanState_pc (s : MdStream) (c : UInt8) : (s.pc c).spanState = s.spanState :=
  spanState_releaseBlanks s

@[simp] theorem spanState_pv (s : MdStream) (text : Bytes) :
    (s.pv text).spanState = s.spanState := by
  unfold pv
  split_ifs
  · rfl
  · exact spanState_releaseBlanks s

@[simp] theorem spanState_endLine (s : MdStream) : (s.endLine host).spanState = s.spanState := by
  show (s.dropStyles.newline host).spanState = s.spanState
  unfold newline dropStyles
  split_ifs <;> rfl

/-- A span that opened while text was replayed holds one character at most,
and none that could open another. -/
structure Small (s : MdStream) : Prop where
  once : ¬(s.dollar = true ∧ s.slash = true)
  mathDollar : s.mathDollar = false
  text : s.math = none ∨ s.mathText = [] ∨
    ∃ c, c ≠ ch '$' ∧ c ≠ ch '\\' ∧ s.mathText = [c]

theorem Small.congr {s s' : MdStream} (h : s.Small) (hspan : s'.spanState = s.spanState) :
    s'.Small := by
  simp only [spanState, Prod.mk.injEq] at hspan
  obtain ⟨hmath, htext, hdollar, hslash, hmathDollar⟩ := hspan
  refine ⟨?_, hmathDollar.trans h.mathDollar, ?_⟩
  · rw [hdollar, hslash]
    exact h.once
  · rw [hmath, htext]
    exact h.text

section Small

variable {s : MdStream}

/-- A small span stays as it is while neither dollar nor backslash is held. -/
theorem Small.of_idle (h : s.Small) {s' : MdStream} (hmath : s'.math = s.math)
    (htext : s'.mathText = s.mathText) (hmathDollar : s'.mathDollar = s.mathDollar)
    (honce : ¬(s'.dollar = true ∧ s'.slash = true)) : s'.Small :=
  ⟨honce, hmathDollar.trans h.mathDollar, by rw [hmath, htext]; exact h.text⟩

theorem Small.inlineMarker (h : s.Small) (hd : s.dollar = false) (hs : s.slash = false)
    (c : UInt8) : (s.inlineMarker host c).Small := by
  unfold MdStream.inlineMarker
  split_ifs
  · exact h.of_idle rfl rfl rfl fun hboth => absurd hboth.2 (Bool.eq_false_iff.mp hs)
  · exact h.of_idle rfl rfl rfl fun hboth => absurd hboth.1 (Bool.eq_false_iff.mp hd)
  · exact h.congr rfl
  · exact h.congr (spanState_pc _ c)
  · exact h.congr (spanState_pc _ c)
  · exact h.congr (spanState_endLine host s)
  · exact h.congr (spanState_pc s c)

theorem Small.inlineStar (h : s.Small) (hd : s.dollar = false) (hs : s.slash = false)
    (c : UInt8) : (s.inlineStar host c).Small := by
  have hmarker : ∀ s' : MdStream, s'.spanState = s.spanState → (s'.inlineMarker host c).Small := by
    intro s' hspan
    have hspan' := hspan
    simp only [spanState, Prod.mk.injEq] at hspan'
    exact (h.congr hspan).inlineMarker host (hspan'.2.2.1.trans hd) (hspan'.2.2.2.1.trans hs) c
  unfold MdStream.inlineStar afterStar
  split_ifs
  · exact h.inlineMarker host hd hs c
  · exact h.congr rfl
  · exact h.congr rfl
  · exact hmarker _ (spanState_pv _ _)
  · exact hmarker _ rfl
  · exact hmarker _ rfl
  · exact hmarker _ rfl
  · exact hmarker _ (spanState_pv _ _)

theorem Small.afterSlash (h : s.Small) (hd : s.dollar = false) (hs : s.slash = false)
    (c : UInt8) : (s.afterSlash host c).Small := by
  unfold MdStream.afterSlash
  split_ifs
  · exact ⟨fun hboth => h.once hboth, h.mathDollar, .inr (.inl rfl)⟩
  · exact ⟨fun hboth => h.once hboth, h.mathDollar, .inr (.inl rfl)⟩
  · exact h.congr (spanState_pc _ _)
  · have hspan := spanState_pc s (ch '\\')
    simp only [spanState, Prod.mk.injEq] at hspan
    exact (h.congr (spanState_pc _ _)).inlineStar host (hspan.2.2.1.trans hd)
      (hspan.2.2.2.1.trans hs) c

theorem Small.inlineSlash (h : s.Small) (hd : s.dollar = false) (c : UInt8) :
    (s.inlineSlash host c).Small := by
  unfold MdStream.inlineSlash
  split_ifs with hs
  · have hfresh : ({ s with slash := false } : MdStream).Small :=
      h.of_idle rfl rfl rfl fun hboth => absurd hboth.2 Bool.false_ne_true
    exact hfresh.afterSlash host hd rfl c
  · exact h.inlineStar host hd (Bool.eq_false_iff.mpr hs) c

theorem Small.afterDollar (h : s.Small) (hd : s.dollar = false) (hs : s.slash = false)
    (c : UInt8) : (s.afterDollar host c).Small := by
  unfold MdStream.afterDollar firstMathChar
  by_cases hc : c = ch '$'
  · rw [if_pos hc]
    exact ⟨fun hboth => h.once hboth, h.mathDollar, .inr (.inl rfl)⟩
  rw [if_neg hc, if_neg (show ¬(s.openMath .inline).slash = true from Bool.eq_false_iff.mp hs)]
  split_ifs with hword hback
  · exact ⟨fun hboth => absurd hboth.1 (Bool.eq_false_iff.mp hd), h.mathDollar, .inr (.inl rfl)⟩
  · exact ⟨fun hboth => h.once hboth, h.mathDollar, .inr (.inr ⟨c, hc, hback, rfl⟩)⟩
  · have hspan := spanState_pc s (ch '$')
    simp only [spanState, Prod.mk.injEq] at hspan
    exact (h.congr (spanState_pc _ _)).inlineSlash host (hspan.2.2.1.trans hd) c

theorem Small.inlineChar (h : s.Small) (c : UInt8) : (s.inlineChar host c).Small := by
  unfold MdStream.inlineChar
  split_ifs with hd
  · have hslash : s.slash = false := Bool.eq_false_iff.mpr fun hs => h.once ⟨hd, hs⟩
    have hfresh : ({ s with dollar := false } : MdStream).Small :=
      h.of_idle rfl rfl rfl fun hboth => absurd hboth.1 Bool.false_ne_true
    exact hfresh.afterDollar host rfl hslash c
  · exact h.inlineSlash host (Bool.eq_false_iff.mpr hd) c

theorem Small.foldl (h : s.Small) (text : Bytes) :
    (text.foldl (MdStream.inlineChar host) s).Small := by
  induction text generalizing s with
  | nil => exact h
  | cons c text ih => exact ih (h.inlineChar host c)

/-- Whatever was held, a replay leaves a small span, if any. -/
theorem small_replayMath (s : MdStream) : (s.replayMath host).Small := by
  unfold replayMath
  refine Small.foldl host (Small.congr ?_ (spanState_pv _ _)) _
  exact ⟨fun hboth => absurd hboth.1 Bool.false_ne_true, rfl, .inl rfl⟩

/-- Nothing opens but behind a dollar or a backslash, and `c` is neither held
nor does it open anything. -/
structure Quiet (c : UInt8) (s : MdStream) : Prop where
  math : s.math = none
  dollar : s.dollar = false
  slash : c ≠ ch '\\' → s.slash = false

theorem quiet_inlineChar (hmath : s.math = none) (hd : s.dollar = false) (hs : s.slash = false)
    {c : UInt8} (hc : c ≠ ch '$') : Quiet c (s.inlineChar host c) := by
  have hsame : ∀ s' : MdStream, s'.spanState = s.spanState → Quiet c s' := by
    intro s' hspan
    simp only [spanState, Prod.mk.injEq] at hspan
    exact ⟨hspan.1.trans hmath, hspan.2.2.1.trans hd, fun _ => hspan.2.2.2.1.trans hs⟩
  have hmarker : ∀ s' : MdStream, s'.spanState = s.spanState →
      Quiet c (s'.inlineMarker host c) := by
    intro s' hspan
    unfold inlineMarker
    split_ifs with hdollar hback
    · exact absurd hdollar.1 hc
    · exact ⟨(hsame s' hspan).math, (hsame s' hspan).dollar, fun hne => absurd hback.1 hne⟩
    · exact hsame _ hspan
    · exact hsame _ ((spanState_pc _ c).trans hspan)
    · exact hsame _ ((spanState_pc _ c).trans hspan)
    · exact hsame _ ((spanState_endLine host s').trans hspan)
    · exact hsame _ ((spanState_pc s' c).trans hspan)
  unfold MdStream.inlineChar inlineSlash inlineStar afterStar
  rw [if_neg (Bool.eq_false_iff.mp hd), if_neg (Bool.eq_false_iff.mp hs)]
  split_ifs
  · exact hmarker s rfl
  · exact hsame _ rfl
  · exact hsame _ rfl
  · exact hmarker _ (spanState_pv _ _)
  · exact hmarker _ rfl
  · exact hmarker _ rfl
  · exact hmarker _ rfl
  · exact hmarker _ (spanState_pv _ _)

/-- What a small span holds opens nothing. -/
theorem math_replayMath (h : s.Small) (hmath : s.math ≠ none) :
    (s.replayMath host).math = none := by
  have hheld : s.heldText = s.mathText ++ if s.slash then [ch '\\'] else [] := by
    rw [heldText, h.mathDollar]
    exact List.append_nil _
  unfold replayMath
  rw [hheld]
  have hspan : s.writeOpen.spanState = (none, [], false, false, false) := spanState_pv _ _
  simp only [spanState, Prod.mk.injEq] at hspan
  obtain ⟨hnone, -, hd, hs, -⟩ := hspan
  have hslash : ∀ s' : MdStream, s'.math = none → s'.dollar = false → s'.slash = false →
      ((if s.slash then [ch '\\'] else []).foldl (MdStream.inlineChar host) s').math = none := by
    intro s' hmath' hd' hs'
    split_ifs
    · exact (quiet_inlineChar host hmath' hd' hs' (by decide)).math
    · exact hmath'
  rw [List.foldl_append]
  rcases h.text with hnot | htext | ⟨c, hc, hback, htext⟩
  · exact absurd hnot hmath
  · rw [htext]
    exact hslash s.writeOpen hnone hd hs
  · have hquiet := quiet_inlineChar host hnone hd hs hc
    rw [htext]
    exact hslash _ hquiet.math hquiet.dollar (hquiet.slash hback)

/-- The loop of replays ends within two rounds. -/
theorem math_replayAll (s : MdStream) : (s.replayAll host).math = none := by
  unfold replayAll replayLoop
  split_ifs with hmath
  · exact hmath
  · unfold replayLoop
    split_ifs with hagain
    · exact hagain
    · exact math_replayMath host (small_replayMath host s) hagain

end Small

/-! ### What is held reads on -/

section Shows

variable {s : MdStream} {read : Bytes}

/-- A held line end is the last that was read. -/
theorem Shows.getLast?_of_blank (h : s.Shows read) (hne : s.blankHeld ≠ 0) :
    read.getLast? = some (ch '\n') := by
  obtain ⟨hpre, hmath, hd, hs⟩ := h.blank hne
  have hidle : s.Idle := ⟨hmath, hd, hs, hpre⟩
  rw [← h.text, hidle.pending, MdStream.blank, if_neg hne]
  exact List.getLast?_concat

/-- So is a held backslash. -/
theorem Shows.getLast?_of_slash (h : s.Shows read) (hs : s.slash = true) :
    read.getLast? = some (ch '\\') := by
  rw [← h.text]
  cases hmath : s.math with
  | none =>
    rw [pending_of_none hmath, hs, if_pos rfl, ← List.append_assoc, ← List.append_assoc]
    exact List.getLast?_concat
  | some kind =>
    have hm : s.mathDollar = false := by
      rw [Bool.eq_false_iff]
      exact fun hm => absurd hs (Bool.eq_false_iff.mp (h.mathDollar hm).2)
    have hheld : s.heldText = s.mathText ++ [ch '\\'] := by
      rw [heldText, hs, hm]
      exact List.append_nil _
    rw [pending_of_math hmath, hheld, ← List.append_assoc, ← List.append_assoc,
      ← List.append_assoc]
    exact List.getLast?_concat

/-- So is a held dollar, where no indentation is behind it. -/
theorem Shows.getLast?_of_dollar (h : s.Shows read) (hd : s.dollar = true) (hpre : s.pre = []) :
    read.getLast? = some (ch '$') := by
  obtain ⟨earlier, rfl, -⟩ := h.dropDollar hd hpre
  exact List.getLast?_concat

/-- What prose goes on with behind what was read, as the state sees it. -/
theorem Shows.lineStart_of_blank (h : s.Shows read) {c : UInt8} (hc : MayFollow read.getLast? c)
    (hne : s.blankHeld ≠ 0) : isLineStart c = true := by
  rw [h.getLast?_of_blank hne] at hc
  exact hc.lineStart

theorem Shows.slashed_of_slash (h : s.Shows read) {c : UInt8} (hc : MayFollow read.getLast? c)
    (hs : s.slash = true) : isSlashed c = true := by
  rw [h.getLast?_of_slash hs] at hc
  exact hc.slashed

/-- What is left after a text was read inline, behind `last`. -/
structure Reread (last : Option UInt8) (text : Bytes) (s : MdStream) : Prop where
  pre : s.pre = []
  mathDollar : s.mathDollar = false
  math : s.math ≠ none → opensLast last text = true ∧ s.heldText.length ≤ 1

/-- A text that is read inline, in which no span opens before its end. -/
theorem shows_foldl_inlineChar {text : Bytes} {last : Option UInt8} (h : s.Shows read)
    (hmath : s.math = none) (hpre : s.pre = []) (hspelled : Spelled read.getLast? text)
    (hd : s.dollar = true → last = some (ch '$')) (hs : s.slash = true → last = some (ch '\\'))
    (hearly : opensEarly last text = false) :
    (text.foldl (inlineChar host) s).Shows (read ++ text) ∧
      Reread last text (text.foldl (inlineChar host) s) := by
  induction text generalizing s read last with
  | nil =>
    rw [List.append_nil]
    exact ⟨h, hpre, h.mathDollar_of_none hmath, fun hne => absurd hmath hne⟩
  | cons c text ih =>
    obtain ⟨hfirst, hrest⟩ := hspelled
    rw [opensEarly, Bool.or_eq_false_iff, Bool.and_eq_false_iff] at hearly
    obtain ⟨hstep, hinlined⟩ := shows_inlineChar host h hmath hpre hfirst.isProse
      (h.lineStart_of_blank hfirst) hd fun htrue => ⟨hs htrue, h.slashed_of_slash hfirst htrue⟩
    rw [List.foldl_cons]
    cases htext : text with
    | nil =>
      refine ⟨hstep, hinlined.pre, hinlined.mathDollar, fun hne => ?_⟩
      obtain ⟨hopens, hlen⟩ := hinlined.math hne
      refine ⟨?_, hlen⟩
      rw [opensLast, hopens]
      rfl
    | cons d rest =>
      -- An opener before the end is ruled out, so no span is open here.
      have hclosed : (s.inlineChar host c).math = none := by
        by_contra hne
        rcases hearly.1 with hnot | hnil
        · exact absurd (hinlined.math hne).1 (Bool.eq_false_iff.mp hnot)
        · rw [htext] at hnil
          exact absurd hnil (by simp)
      rw [← htext, show read ++ c :: text = read ++ [c] ++ text by simp]
      obtain ⟨hshows, hreread⟩ := ih hstep hclosed hinlined.pre
        (by rw [List.getLast?_concat]; exact hrest)
        (fun htrue => congrArg some (hinlined.dollar htrue))
        (fun htrue => congrArg some (hinlined.slash htrue)) hearly.2
      refine ⟨hshows, hreread.pre, hreread.mathDollar, fun hne => ?_⟩
      obtain ⟨hopens, hlen⟩ := hreread.math hne
      refine ⟨?_, hlen⟩
      rw [opensLast, hopens, Bool.or_true]

/-- An open span is what was read last. -/
theorem Shows.text_of_math (h : s.Shows read) {kind : MathKind} (hmath : s.math = some kind) :
    s.written ++ (mathOpen kind ++ s.heldText) = read := by
  have hblank : s.blankHeld = 0 := by
    by_contra hne
    have hnone := (h.blank hne).2.1
    rw [hmath] at hnone
    cases hnone
  have htext := h.text
  rwa [pending_of_math hmath, blank_of_eq_zero hblank] at htext

/-- A replay of held text in which no span opens before its end. -/
theorem shows_replayMath (h : s.Shows read) (hread : Spelled none read) (hmath : s.math ≠ none)
    (hearly : opensEarly none s.heldText = false) :
    (s.replayMath host).Shows read ∧ Reread none s.heldText (s.replayMath host) := by
  obtain ⟨kind, hkind⟩ := Option.ne_none_iff_exists'.mp hmath
  have htext := h.text_of_math hkind
  have hblank : s.blankHeld = 0 := by
    by_contra hne
    exact hmath (h.blank hne).2.1
  have hpre : s.pre = [] := by
    by_contra hne
    exact hmath (h.pre hne).1
  have hopen : mathOpen kind ≠ [] := by cases kind <;> decide
  have hwrite : s.writeOpen = (s.closeMath.style .fgDfl).put (mathOpen kind) := by
    rw [writeOpen, hkind, Option.getD_some, pv, if_neg hopen, MdStream.releaseBlanks]
    exact congrArg (put · _) (if_pos hblank)
  have hidle : s.writeOpen.Idle := by
    rw [hwrite]
    exact ⟨rfl, rfl, rfl, hpre⟩
  have hwritten : s.writeOpen.written = s.written ++ mathOpen kind := by
    rw [hwrite, written_put, written_style]
    rfl
  have hstart : s.writeOpen.Shows (s.written ++ mathOpen kind) := by
    refine hidle.shows ?_ ?_ ?_
    · rw [hwrite]
      exact { h.plain with }
    · rw [hwrite]
      rfl
    · have hzero : s.writeOpen.blankHeld = 0 := by
        rw [hwrite]
        exact hblank
      rw [blank_of_eq_zero hzero, List.append_nil, hwritten]
  rw [← List.append_assoc] at htext
  rw [← htext] at hread
  have hspelled := (spelled_append.mp hread).2
  rw [Option.or_none] at hspelled
  have hfold := shows_foldl_inlineChar host hstart hidle.math hidle.pre hspelled
    (fun htrue => absurd htrue (Bool.eq_false_iff.mp hidle.dollar))
    (fun htrue => absurd htrue (Bool.eq_false_iff.mp hidle.slash)) hearly
  rw [htext] at hfold
  exact hfold

/-- So with the loop of replays. -/
theorem shows_replayAll (h : s.Shows read) (hread : Spelled none read)
    (hearly : s.math ≠ none → opensEarly none s.heldText = false) :
    (s.replayAll host).Shows read ∧ (s.math ≠ none → (s.replayAll host).pre = []) := by
  unfold replayAll replayLoop
  split_ifs with hmath
  · exact ⟨h, fun hne => absurd hmath hne⟩
  · obtain ⟨hshows, hreread⟩ := shows_replayMath host h hread hmath (hearly hmath)
    unfold replayLoop
    split_ifs with hagain
    · exact ⟨hshows, fun _ => hreread.pre⟩
    · obtain ⟨hshows', hreread'⟩ := shows_replayMath host hshows hread hagain
        (opensEarly_of_length_le_one (hreread.math hagain).2 none)
      exact ⟨hshows', fun _ => hreread'.pre⟩

end Shows

end MdStream

end UAgent
