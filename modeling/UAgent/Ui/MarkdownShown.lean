/-
UAgent/Ui/MarkdownShown.lean

Prose comes out as it was written, in whatever parts it is fed: where no
mathematics is completed in it, and held text that is read again opens no span
on the way (`Fair`), the renderer writes every byte once and in order
(`shows_feeds`).
-/
import UAgent.Ui.MarkdownReplay
import UAgent.Base.Run

namespace UAgent

open Bytes

namespace MdStream

variable (host : MdHost) {s : MdStream} {read : Bytes} {c : UInt8}

/-! ### Conditions on a step -/

/-- The character completes the span that is open. -/
def Completes (s : MdStream) (c : UInt8) : Prop :=
  s.math ≠ none ∧ s.mathText.length < kMdMathBytes ∧ s.slash = false ∧ c = ch '$' ∧
    (s.math = some .inline ∧ plausibleInlineMath s.mathText = true ∨ s.mathDollar = true)

/-- What is read again opens no span on the way: at the bound of a span, behind
a dollar that ends none, and at the end of a line.  What the renderer holds
besides is the last that was read. -/
structure Fair (s : MdStream) (c : UInt8) : Prop where
  bound : s.math ≠ none → kMdMathBytes ≤ s.mathText.length →
    opensEarly none s.heldText = false ∧ opensLast none s.heldText = false
  implausible : s.math = some .inline → c = ch '$' → plausibleInlineMath s.mathText = false →
    opensEarly none (s.mathText ++ [ch '$']) = false
  line : (s.math = some .inline ∨ s.math = some .paren) → c = ch '\n' →
    opensEarly none s.heldText = false ∧ s.heldText.getLast? ≠ some (ch '$')
  mathDollar : s.mathDollar = true → c ≠ ch '\\'
  linestart : s.math = none → s.linestart = true → s.dollar = false ∧ isLineMarker c = false

instance (s : MdStream) (c : UInt8) : Decidable (Completes s c) := by
  unfold Completes; infer_instance

instance (s : MdStream) (c : UInt8) : Decidable (Fair s c) :=
  decidable_of_iff
    ((s.math ≠ none → kMdMathBytes ≤ s.mathText.length →
        opensEarly none s.heldText = false ∧ opensLast none s.heldText = false) ∧
      (s.math = some .inline → c = ch '$' → plausibleInlineMath s.mathText = false →
        opensEarly none (s.mathText ++ [ch '$']) = false) ∧
      ((s.math = some .inline ∨ s.math = some .paren) → c = ch '\n' →
        opensEarly none s.heldText = false ∧ s.heldText.getLast? ≠ some (ch '$')) ∧
      (s.mathDollar = true → c ≠ ch '\\') ∧
      (s.math = none → s.linestart = true → s.dollar = false ∧ isLineMarker c = false))
    ⟨fun h => ⟨h.1, h.2.1, h.2.2.1, h.2.2.2.1, h.2.2.2.2⟩,
      fun h => ⟨h.bound, h.implausible, h.line, h.mathDollar, h.linestart⟩⟩

/-! ### Inside a span -/

/-- The inline step in prose. -/
theorem Shows.inlineChar (h : s.Shows read) (hmath : s.math = none) (hpre : s.pre = [])
    (hc : MayFollow read.getLast? c) : (s.inlineChar host c).Shows (read ++ [c]) :=
  (shows_inlineChar host h hmath hpre hc.isProse (h.lineStart_of_blank hc)
    (fun htrue => h.getLast?_of_dollar htrue hpre)
    fun htrue => ⟨h.getLast?_of_slash htrue, h.slashed_of_slash hc htrue⟩).1

/-- More is held of a span. -/
theorem Shows.of_held (h : s.Shows read) {kind : MathKind} (hmath : s.math = some kind)
    (mathText more : Bytes) (slash mathDollar : Bool)
    (hm : mathDollar = true → kind = .display ∧ slash = false)
    (hinline : kind = .inline → mathText ≠ [] ∨ slash = true)
    (hheld : mathText ++ (if slash then [ch '\\'] else []) ++
      (if mathDollar then [ch '$'] else []) = s.heldText ++ more) :
    ({ s with mathText, slash, mathDollar } : MdStream).Shows (read ++ more) := by
  have hblank : s.blankHeld = 0 := by
    by_contra hne
    have hnone := (h.blank hne).2.1
    rw [hmath] at hnone
    cases hnone
  have hpre : s.pre = [] := by
    by_contra hne
    have hnone := (h.pre hne).1
    rw [hmath] at hnone
    cases hnone
  have hdollar : s.dollar = false := by
    rw [Bool.eq_false_iff]
    intro hd
    have hnone := (h.dollar hd).1
    rw [hmath] at hnone
    cases hnone
  refine shows_of_math { h.plain with } hmath hblank hpre hdollar hm hinline ?_
  show s.written ++ (mathOpen kind ++ (mathText ++ _ ++ _)) = _
  rw [hheld, ← List.append_assoc (mathOpen kind), ← List.append_assoc, h.text_of_math hmath]

theorem heldText_of_slash (hs : s.slash = false) :
    s.heldText = s.mathText ++ if s.mathDollar then [ch '$'] else [] := by
  rw [heldText, hs]
  exact congrArg (· ++ _) (List.append_nil _)

/-- A character is held. -/
theorem Shows.hold (h : s.Shows read) {kind : MathKind} (hmath : s.math = some kind)
    (hs : s.slash = false) (hd : s.mathDollar = false) (c : UInt8) :
    (s.hold [c]).Shows (read ++ [c]) := by
  refine h.of_held hmath (s.mathText ++ [c]) [c] s.slash s.mathDollar
    (fun htrue => absurd htrue (Bool.eq_false_iff.mp hd))
    (fun _ => .inl (List.append_ne_nil_of_right_ne_nil _ (List.cons_ne_nil c []))) ?_
  rw [heldText_of_idle hs hd, hs, hd]
  exact (List.append_nil _).trans (List.append_nil _)

/-- What is held of a span was read last. -/
theorem Shows.getLast?_of_held (h : s.Shows read) {kind : MathKind} (hmath : s.math = some kind) :
    read.getLast? = s.heldText.getLast?.or (mathOpen kind).getLast? := by
  have hopen : (mathOpen kind).getLast?.isSome = true := by cases kind <;> rfl
  rw [← h.text_of_math hmath, List.getLast?_append, List.getLast?_append, Option.or_assoc,
    Option.or_of_isSome hopen]

/-- A line of a span goes on, or ends with what is held read again. -/
theorem shows_mathLine (h : s.Shows read) (hread : Spelled none (read ++ [c])) {kind : MathKind}
    (hmath : s.math = some kind) (hs : s.slash = false) (hd : s.mathDollar = false)
    (hfair : (kind = .inline ∨ kind = .paren) → c = ch '\n' →
      opensEarly none s.heldText = false ∧ s.heldText.getLast? ≠ some (ch '$')) :
    (s.mathLine host c).Shows (read ++ [c]) := by
  obtain ⟨hearlier, hlast⟩ := spelled_append.mp hread
  rw [Option.or_none] at hlast
  have hheld := heldText_of_idle hs hd
  unfold mathLine
  split_ifs with hline hkeep
  · exact h.hold hmath hs hd c
  · exact h.hold hmath hs hd c
  have hline : c = ch '\n' := not_not.mp hline
  subst hline
  -- a line of prose is not empty, so that only a span of one line ends
  have hkind : kind = .inline ∨ kind = .paren := by
    by_contra hnot
    rw [not_or] at hnot
    have hlong : s.math = some .display ∨ s.math = some .bracket := by
      rw [hmath]
      cases kind with
      | inline => exact absurd rfl hnot.1
      | display => exact .inl rfl
      | paren => exact absurd rfl hnot.2
      | bracket => exact .inr rfl
    have hend : s.mathText.getLast? = some (ch '\n') := by
      by_contra hne
      exact hkeep ⟨hlong, hne⟩
    have hfirst := hlast.1
    rw [h.getLast?_of_held hmath, hheld, hend] at hfirst
    exact absurd hfirst.lineStart (by decide)
  obtain ⟨hearly, hnot⟩ := hfair hkind rfl
  obtain ⟨hshows, hempty⟩ := shows_replayAll host h hearlier fun _ => hearly
  have hpre : (s.replayAll host).pre = [] := hempty (by rw [hmath]; exact Option.some_ne_none _)
  have hnone := math_replayAll host s
  have hslash : (s.replayAll host).slash = false := by
    rw [Bool.eq_false_iff]
    intro htrue
    have hslashed := hlast.1
    rw [hshows.getLast?_of_slash htrue] at hslashed
    exact absurd hslashed.slashed (by decide)
  have hdollar : (s.replayAll host).dollar = false := by
    rw [Bool.eq_false_iff]
    intro htrue
    have hend := hshows.getLast?_of_dollar htrue hpre
    rw [h.getLast?_of_held hmath, hheld] at hend
    cases htext : s.mathText.getLast? with
    | some last =>
      rw [htext] at hend
      exact hnot (by rw [hheld, htext]; exact hend)
    | none =>
      rw [htext] at hend
      rcases hkind with rfl | rfl
      · have hempty := List.getLast?_eq_none_iff.mp htext
        exact (h.inline hmath).elim (fun hne => hne hempty) (fun htrue => by simp [hs] at htrue)
      · exact absurd hend (by decide)
  have hidle : (s.replayAll host).Idle := ⟨hnone, hdollar, hslash, hpre⟩
  have hblank : (s.replayAll host).blankHeld = 0 := by
    by_contra hne
    exact absurd (hshows.lineStart_of_blank hlast.1 hne) (by decide)
  exact (hshows.endLine host hidle hblank).1

/-- So in a span between double dollars. -/
theorem shows_mathDisplay (h : s.Shows read) (hread : Spelled none (read ++ [c]))
    (hmath : s.math = some .display) (hs : s.slash = false)
    (hmore : s.mathDollar = true → c ≠ ch '$') :
    (s.mathDisplay host c).Shows (read ++ [c]) := by
  have hlong : ∀ {P : Prop}, (MathKind.display = .inline ∨ MathKind.display = .paren) → P := by
    rintro P (hkind | hkind) <;> cases hkind
  unfold mathDisplay
  by_cases hd : s.mathDollar = true
  · rw [if_pos hd, if_neg (hmore hd)]
    -- the dollar ended nothing and is held with the rest
    have hheld : ({ s with mathDollar := false }.hold [ch '$'] : MdStream).Shows (read ++ []) := by
      refine h.of_held hmath (s.mathText ++ [ch '$']) [] s.slash false
        (fun htrue => absurd htrue Bool.false_ne_true) (fun hk => by cases hk) ?_
      rw [heldText_of_slash hs, hs, hd, List.append_nil]
      exact (List.append_nil _).trans (List.append_nil _)
    rw [List.append_nil] at hheld
    exact shows_mathLine host hheld hread hmath hs rfl fun hkind => hlong hkind
  · rw [if_neg hd]
    have hd : s.mathDollar = false := Bool.eq_false_iff.mpr hd
    split_ifs with hdollar
    · refine h.of_held hmath s.mathText [c] s.slash true (fun _ => ⟨rfl, hs⟩)
        (fun hk => by cases hk) ?_
      rw [heldText_of_idle hs hd, hs, hdollar]
      exact congrArg (· ++ [ch '$']) (List.append_nil _)
    · exact shows_mathLine host h hread hmath hs hd fun hkind => hlong hkind

/-- What is held of a span keeps the text, where it is not completed. -/
theorem shows_mathChar (h : s.Shows read) (hread : Spelled none (read ++ [c]))
    (hmath : s.math ≠ none) (hopen : ¬s.Completes c) (hfair : s.Fair c) :
    (s.mathChar host c).Shows (read ++ [c]) := by
  obtain ⟨hearlier, hlast⟩ := spelled_append.mp hread
  rw [Option.or_none] at hlast
  have hprose := hlast.1.isProse
  obtain ⟨kind, hkind⟩ := Option.ne_none_iff_exists'.mp hmath
  unfold mathChar
  by_cases hbound : kMdMathBytes ≤ s.mathText.length
  · -- At the bound what is held is replayed, and closes the span.
    rw [if_pos hbound]
    obtain ⟨hearly, hend⟩ := hfair.bound hmath hbound
    obtain ⟨hshows, hreread⟩ := shows_replayMath host h hearlier hmath hearly
    have hnone : (s.replayMath host).math = none := by
      by_contra hne
      exact absurd (hreread.math hne).1 (Bool.eq_false_iff.mp hend)
    exact hshows.inlineChar host hnone hreread.pre hlast.1
  rw [if_neg hbound]
  by_cases hs : s.slash = true
  · -- A backslash is held: the character does not close a bracket.
    have hd : s.mathDollar = false := by
      rw [Bool.eq_false_iff]
      exact fun htrue => absurd hs (Bool.eq_false_iff.mp (h.mathDollar htrue).2)
    have hslashed : isSlashed c = true := h.slashed_of_slash hlast.1 hs
    have hnot : ¬((s.math = some .paren ∧ c = ch ')') ∨ (s.math = some .bracket ∧ c = ch ']')) := by
      rintro (⟨-, rfl⟩ | ⟨-, rfl⟩) <;> exact absurd hslashed (by decide)
    rw [if_pos hs, if_neg hnot]
    refine h.of_held hkind (s.mathText ++ [ch '\\', c]) [c] false s.mathDollar
      (fun htrue => absurd htrue (Bool.eq_false_iff.mp hd))
      (fun _ => .inl (List.append_ne_nil_of_right_ne_nil _ (List.cons_ne_nil _ _))) ?_
    rw [heldText, hs, hd]
    simp
  rw [if_neg hs]
  have hs : s.slash = false := Bool.eq_false_iff.mpr hs
  by_cases hback : c = ch '\\'
  · have hd : s.mathDollar = false :=
      Bool.eq_false_iff.mpr fun htrue => hfair.mathDollar htrue hback
    rw [if_pos hback]
    refine h.of_held hkind s.mathText [c] true s.mathDollar
      (fun htrue => absurd htrue (Bool.eq_false_iff.mp hd)) (fun _ => .inr rfl) ?_
    rw [heldText_of_idle hs hd, hd, hback]
    exact List.append_nil _
  rw [if_neg hback]
  by_cases hinline : s.math = some .inline ∧ c = ch '$'
  · obtain ⟨hkind, hdollar⟩ := hinline
    have hd : s.mathDollar = false := by
      rw [Bool.eq_false_iff]
      intro htrue
      have hdisplay := (h.mathDollar htrue).1
      rw [hkind] at hdisplay
      cases hdisplay
    -- The span would be completed, were it plausible; so it is replayed.
    have himplausible : plausibleInlineMath s.mathText = false := by
      rw [Bool.eq_false_iff]
      exact fun htrue => hopen ⟨hmath, Nat.lt_of_not_le hbound, hs, hdollar, .inl ⟨hkind, htrue⟩⟩
    rw [if_pos ⟨hkind, hdollar⟩, if_neg (Bool.eq_false_iff.mp himplausible), ← hdollar]
    refine (shows_replayMath host (h.hold hkind hs hd c) hread (by rw [hold, hkind]; simp) ?_).1
    rw [heldText_of_idle (s := s.hold [c]) hs hd, hdollar]
    exact hfair.implausible hkind hdollar himplausible
  rw [if_neg hinline]
  by_cases hdisplay : s.math = some .display
  · rw [if_pos hdisplay]
    refine shows_mathDisplay host h hread hdisplay hs fun htrue hdollar => ?_
    exact hopen ⟨hmath, Nat.lt_of_not_le hbound, hs, hdollar, .inr htrue⟩
  · -- A span of brackets, or an inline one whose end this is not.
    rw [if_neg hdisplay]
    have hd : s.mathDollar = false := Bool.eq_false_iff.mpr fun htrue =>
      hdisplay (h.mathDollar htrue).1
    refine shows_mathLine host h hread hkind hs hd fun hshort hline => ?_
    exact hfair.line (by rw [hkind]; exact hshort.imp (congrArg some) (congrArg some)) hline

/-! ### At the beginning of a line -/

/-- The indentation is written. -/
theorem Shows.emitPre (h : s.Shows read) (hd : s.dollar = false) : s.emitPre.Shows read := by
  unfold MdStream.emitPre pv
  by_cases hpre : s.pre = []
  · rw [if_pos hpre, ← hpre]
    exact h
  · rw [if_neg hpre]
    obtain ⟨hmath, hs, -⟩ := h.pre hpre
    have hblank : s.blankHeld = 0 := by
      by_contra hne
      exact hpre (h.blank hne).1
    have hsame : s.releaseBlanks = s := if_pos hblank
    rw [hsame]
    have hidle : ({ s.put s.pre with pre := [] } : MdStream).Idle := ⟨hmath, hd, hs, rfl⟩
    refine hidle.shows { h.plain with } (h.mathDollar_of_none hmath) ?_
    show (s.put s.pre).written ++ s.blank = read
    rw [written_put, blank_of_eq_zero hblank, List.append_nil, ← h.text, pending_of_none hmath,
      blank_of_eq_zero hblank, hd, hs]
    simp

@[simp] theorem pre_emitPre (s : MdStream) : s.emitPre.pre = [] := rfl

theorem spanState_emitPre (s : MdStream) : s.emitPre.spanState = s.spanState :=
  spanState_pv s s.pre

/-- A space of the indentation is held. -/
theorem Shows.indented (h : s.Shows read) (hmath : s.math = none) (hd : s.dollar = false)
    (hs : s.slash = false) (hblank : s.blankHeld = 0) (hstart : s.linestart = true) :
    ({ s with pre := s.pre ++ [ch ' '] } : MdStream).Shows (read ++ [ch ' ']) where
  plain := { h.plain with }
  text := by
    have htext := h.text
    rw [pending_of_none hmath, blank_of_eq_zero hblank, hd, hs] at htext
    rw [← htext, pending_of_none (s := { s with pre := s.pre ++ [ch ' '] }) hmath]
    show s.written ++ (s.blank ++ _) = _
    rw [blank_of_eq_zero hblank, hd, hs]
    simp
  blank hne := absurd hblank hne
  pre _ := ⟨hmath, hs, hstart⟩
  indent c hc := (List.mem_append.mp hc).elim (h.indent c) List.mem_singleton.mp
  dollar htrue := absurd htrue (Bool.eq_false_iff.mp hd)
  mathDollar htrue := absurd htrue (Bool.eq_false_iff.mp (h.mathDollar_of_none hmath))
  inline hk := h.inline hk

/-- A line begins. -/
theorem shows_classify (h : s.Shows read) (hc : MayFollow read.getLast? c) (hmath : s.math = none)
    (hd : s.dollar = false) (hstart : s.linestart = true) (hinline : isLineMarker c = false) :
    (s.classify host c).Shows (read ++ [c]) := by
  have hprose := hc.isProse
  have hspan := spanState_emitPre s
  simp only [spanState, Prod.mk.injEq] at hspan
  obtain ⟨hmath', -, hd', hs', -⟩ := hspan
  have hwritten := h.emitPre hd
  have hmarker : s.marker = [] := by
    rw [marker, List.dropWhile_eq_nil_iff]
    exact fun d hd => by simp [h.indent d hd]
  have hrow : ¬(s.table ≠ [] ∧ c ≠ ch '|') := fun hrow => hrow.1 h.plain.table
  unfold classify
  rw [if_neg (Bool.eq_false_iff.mp h.plain.fence), hmarker]
  unfold classifyFirst
  rw [if_neg hrow]
  -- No marker of a line begins here.
  have hmarks : ∀ d ∈ lit "#~-|\t", c ≠ d := fun d hd heq => by
    rw [isLineMarker, decide_eq_false_iff_not, heq] at hinline
    exact hinline hd
  by_cases hspace : c = ch ' ' ∨ c = ch '\t'
  · rw [if_pos hspace]
    have hc' : c = ch ' ' := hspace.resolve_right (hmarks (ch '\t') (by decide))
    subst hc'
    have hs : s.slash = false := Bool.eq_false_iff.mpr fun htrue =>
      absurd (h.slashed_of_slash hc htrue) (by decide)
    have hblank : s.blankHeld = 0 := by
      by_contra hne
      exact absurd (h.lineStart_of_blank hc hne) (by decide)
    exact h.indented hmath hd hs hblank hstart
  rw [if_neg hspace]
  by_cases hmark : c ∈ lit "#`~-*"
  · -- What begins a heading, a fence or a list is a marker, or no prose.
    have hall : (lit "#`~-*").all (fun d => isLineMarker d || !isProse d) = true := by decide
    have hnot := List.all_eq_true.mp hall c hmark
    rw [hprose, hinline] at hnot
    cases hnot
  rw [if_neg hmark, if_neg (hmarks (ch '|') (by decide))]
  by_cases hline : c = ch '\n'
  · rw [if_pos hline]
    subst hline
    have hs : s.slash = false := Bool.eq_false_iff.mpr fun htrue =>
      absurd (h.slashed_of_slash hc htrue) (by decide)
    have hblank : s.emitPre.blankHeld = 0 := by
      by_contra hne
      exact absurd (hwritten.lineStart_of_blank hc hne) (by decide)
    exact (hwritten.endLine host ⟨hmath'.trans hmath, hd'.trans hd, hs'.trans hs, rfl⟩ hblank).1
  · rw [if_neg hline]
    have hbegun : ({ s.emitPre with linestart := false } : MdStream).Shows read :=
      { hwritten with plain := { hwritten.plain with }, pre := fun hne => absurd rfl hne }
    exact hbegun.inlineChar host (hmath'.trans hmath) rfl hc

/-! ### Steps and runs -/

theorem Shows.recordRaw (h : s.Shows read) (c : UInt8) : (s.recordRaw c).Shows read := by
  unfold MdStream.recordRaw
  split_ifs
  · exact { h with plain := { h.plain with } }
  · exact h

/-- A step keeps the text. -/
theorem shows_step (h : s.Shows read) (hread : Spelled none (read ++ [c]))
    (hopen : ¬s.Completes c) (hfair : s.Fair c) : (s.step host c).Shows (read ++ [c]) := by
  have hlast := (spelled_append.mp hread).2
  rw [Option.or_none] at hlast
  have hraw := h.recordRaw c
  have hopen' : ¬(s.recordRaw c).Completes c := by
    unfold MdStream.recordRaw
    split_ifs <;> exact hopen
  have hfair' : (s.recordRaw c).Fair c := by
    unfold MdStream.recordRaw
    split_ifs
    · exact { hfair with }
    · exact hfair
  have hplain := hraw.plain
  unfold step
  rw [if_neg fun htable => absurd htable.2 (Bool.eq_false_iff.mp hplain.tablemode)]
  unfold stepLine
  rw [if_neg (Bool.eq_false_iff.mp hplain.intable), if_neg (Bool.eq_false_iff.mp hplain.fencehead),
    if_neg (Bool.eq_false_iff.mp hplain.fence)]
  split_ifs with hmath hstart
  · exact shows_mathChar host hraw hread hmath hopen' hfair'
  · have hmath := not_not.mp hmath
    obtain ⟨hd, hinline⟩ := hfair'.linestart hmath hstart
    exact shows_classify host hraw hlast.1 hmath hd hstart hinline
  · have hpre : (s.recordRaw c).pre = [] := by
      by_contra hne
      exact hstart (hraw.pre hne).2.2
    exact hraw.inlineChar host (not_not.mp hmath) hpre hlast.1

/-- Nothing is written yet, and nothing read. -/
theorem shows_start : ({} : MdStream).Shows [] :=
  Idle.shows ⟨rfl, rfl, rfl, rfl⟩ ⟨rfl, rfl, rfl, rfl, rfl, rfl, rfl, rfl, rfl, rfl, rfl⟩ rfl rfl

/-- Steps keep the text. -/
theorem shows_steps {text : Bytes} (h : s.Shows read) (hread : Spelled none (read ++ text))
    (hall : Run.AllOk (step host) (fun s c => ¬s.Completes c ∧ s.Fair c) s text) :
    (text.foldl (step host) s).Shows (read ++ text) := by
  induction text generalizing s read with
  | nil => rwa [List.append_nil]
  | cons c text ih =>
    have hcut : read ++ c :: text = read ++ [c] ++ text := by simp
    rw [hcut] at hread ⊢
    have hstep := shows_step host h (spelled_append.mp hread).1 hall.1.1 hall.1.2
    exact ih hstep hread hall.2

/-- Prose holds no control bytes. -/
theorem printed_of_isProse (h : isProse c = true) :
    (c = ch '\n' ∨ c = ch '\t' ∨ 0x20 ≤ c) ∧ c ≠ 0x7f := by
  simp only [isProse, Bool.or_eq_true, decide_eq_true_eq] at h
  rcases h with ((h | rfl) | rfl) | rfl
  · simp only [isOrdinary, Bool.and_eq_true, Bool.or_eq_true, decide_eq_true_eq] at h
    exact ⟨.inr h.1.1.symm, h.1.2⟩
  all_goals decide

theorem terminalSafe_of_isProse {text : Bytes} (h : ∀ c ∈ text, isProse c = true) :
    terminalSafe text = text := by
  induction text with
  | nil => rfl
  | cons c text ih =>
    have htext := ih fun d hd => h d (List.mem_cons_of_mem c hd)
    rw [terminalSafe] at htext
    rw [terminalSafe, List.flatMap_cons, htext]
    obtain ⟨hprinted, hdelete⟩ := printed_of_isProse (h c List.mem_cons_self)
    rw [if_pos hprinted, if_neg hdelete]
    rfl

/-- However the text is cut, its bytes are read one after another. -/
theorem foldl_feed {chunks : List Bytes} (h : s.Shows read)
    (hread : Spelled none (read ++ chunks.flatten))
    (hall : Run.AllOk (step host) (fun s c => ¬s.Completes c ∧ s.Fair c) s chunks.flatten) :
    chunks.foldl (feed host) s = chunks.flatten.foldl (step host) s := by
  induction chunks generalizing s read with
  | nil => rfl
  | cons chunk chunks ih =>
    rw [List.flatten_cons, ← List.append_assoc] at hread
    rw [List.flatten_cons] at hall
    obtain ⟨hfirst, hrest⟩ := Run.allOk_append.mp hall
    have hchunk := (spelled_append.mp hread).1
    have hsafe : terminalSafe chunk = chunk := by
      refine terminalSafe_of_isProse fun c hc => hchunk.isProse c ?_
      exact List.mem_append_right _ hc
    have hfeed : s.feed host chunk = chunk.foldl (step host) s := by
      rw [feed, if_pos h.plain.on, hsafe]
    rw [List.foldl_cons, hfeed, List.flatten_cons, List.foldl_append]
    exact ih (shows_steps host h hchunk hfirst) hread hrest

/-! ### The end of the stream -/

/-- A dollar or a backslash that is held is written. -/
def resolve (s : MdStream) : MdStream :=
  let s := if s.dollar then s.pc (ch '$') else s
  if s.slash then s.pc (ch '\\') else s

theorem Plain.pc (h : s.Plain) (c : UInt8) : (s.pc c).Plain := { h.releaseBlanks with }

theorem Plain.resolve (h : s.Plain) : s.resolve.Plain := by
  unfold MdStream.resolve
  dsimp only
  split_ifs
  · exact (h.pc _).pc _
  · exact h.pc _
  · exact h.pc _
  · exact h

@[simp] theorem written_closeStyle (s : MdStream) : s.closeStyle.written = s.written := by
  unfold closeStyle
  split_ifs
  · exact written_style s _
  · rfl

/-- So are stars. -/
def resolveStar (s : MdStream) : MdStream :=
  if s.star = 0 then s else s.pv (if s.star = 2 then lit "**" else lit "*")

/-- The rows of a table that goes on are its last. -/
def closeTable (s : MdStream) : MdStream :=
  if s.intable || s.tablemode then
    let s := if s.row = [] then s else s.pushTableRow host s.row
    { s with row := [], intable := false, tablemode := false }
  else s

/-- The last section of `flush`. -/
def ended (s : MdStream) : MdStream :=
  { (s.flushTable host).emitPre.closeStyle with
    blankHeld := 0, bold := false, ital := false, code := false, heading := false,
    fence := false, fencehead := false, math := none, mathText := [], star := 0,
    dollar := false, mathDollar := false, slash := false, linestart := true }

theorem flush_eq (hon : s.on = true) :
    s.flush host = ((s.replayAll host).resolveStar.resolve.closeTable host).ended host :=
  if_pos hon

theorem written_flush (hon : s.on = true) (h : (s.replayAll host).Plain) :
    (s.flush host).written = (s.replayAll host).resolve.emitPre.written := by
  have hresolved := h.resolve
  have htable :
      ¬((s.replayAll host).resolve.intable || (s.replayAll host).resolve.tablemode) = true := by
    rw [hresolved.intable, hresolved.tablemode]
    exact Bool.false_ne_true
  have hstar : (s.replayAll host).resolveStar = s.replayAll host := if_pos h.star
  rw [flush_eq host hon, hstar, closeTable, if_neg htable]
  show ((s.replayAll host).resolve.flushTable host).emitPre.closeStyle.written = _
  rw [written_closeStyle, flushTable, if_pos hresolved.table]

theorem written_emitPre (s : MdStream) :
    s.emitPre.written = if s.pre = [] then s.written else s.written ++ s.blank ++ s.pre := by
  show (s.pv s.pre).written = _
  unfold pv
  split_ifs
  · rfl
  · rw [written_put, MdStream.releaseBlanks, MdStream.blank]
    split_ifs
    · rw [List.append_nil]
    · rw [written_put]
      rfl

/-- The state behind a character that was written. -/
theorem releaseBlanks_kept (s : MdStream) :
    s.releaseBlanks.pre = s.pre ∧ s.releaseBlanks.slash = s.slash := by
  unfold MdStream.releaseBlanks
  split_ifs <;> exact ⟨rfl, rfl⟩

/-- What is still held of a text with no span open is written, but for a line
end behind it. -/
theorem written_resolve (h : s.Shows read) (hmath : s.math = none) :
    s.resolve.emitPre.written = read ∨ s.resolve.emitPre.written ++ [ch '\n'] = read := by
  have htext := h.text
  rw [pending_of_none hmath] at htext
  have hpc : ∀ c : UInt8, (s.pc c).emitPre.written = s.written ++ s.blank ++ [c] ++ s.pre := by
    intro c
    have hpre : (s.pc c).pre = s.pre := (releaseBlanks_kept s).1
    have hblank : (s.pc c).blank = [] := blank_of_eq_zero (blankHeld_releaseBlanks s)
    rw [written_emitPre, hpre, hblank, written_pc, List.append_nil]
    split_ifs with hempty
    · rw [hempty, List.append_nil]
    · rfl
  unfold MdStream.resolve
  dsimp only
  by_cases hd : s.dollar = true
  · obtain ⟨-, hs⟩ := h.dollar hd
    have hs' : ¬(s.pc (ch '$')).slash = true := by
      rw [show (s.pc (ch '$')).slash = s.slash from (releaseBlanks_kept s).2, hs]
      exact Bool.false_ne_true
    rw [if_pos hd, if_neg hs', hpc, ← htext, hd, hs]
    left
    simp
  rw [if_neg hd]
  have hd : s.dollar = false := Bool.eq_false_iff.mpr hd
  by_cases hs : s.slash = true
  · have hpre : s.pre = [] := by
      by_contra hne
      exact absurd hs (Bool.eq_false_iff.mp (h.pre hne).2.1)
    rw [if_pos hs, hpc, ← htext, hd, hs, hpre]
    left
    simp
  rw [if_neg hs]
  have hs : s.slash = false := Bool.eq_false_iff.mpr hs
  rw [written_emitPre, ← htext, hd, hs]
  by_cases hpre : s.pre = []
  · rw [if_pos hpre, hpre, MdStream.blank]
    by_cases hblank : s.blankHeld = 0
    · left
      simp [hblank]
    · right
      simp [hblank]
  · left
    simp [hpre]

/-! ### Main result -/

/-- **Prose is shown as it was written**: whatever its lines and however it is
cut, where no span is completed in it and what is read again opens none on the
way, the renderer writes every byte of it once and in order, but for a line end
at the end; and the replays at the end leave no span open. -/
theorem shows_feeds {chunks : List Bytes} (hprose : Spelled none chunks.flatten)
    (hall : Run.AllOk (step host) (fun s c => ¬s.Completes c ∧ s.Fair c) {} chunks.flatten)
    (hearly : (chunks.flatten.foldl (step host) {}).math ≠ none →
      opensEarly none (chunks.flatten.foldl (step host) {}).heldText = false) :
    ((chunks.foldl (feed host) {}).replayAll host).math = none ∧
      (((chunks.foldl (feed host) {}).flush host).written = chunks.flatten ∨
        ((chunks.foldl (feed host) {}).flush host).written ++ [ch '\n'] = chunks.flatten) := by
  have hshows := shows_steps host shows_start hprose hall
  rw [foldl_feed host shows_start hprose hall]
  rw [List.nil_append] at hshows
  have hnone := math_replayAll host (chunks.flatten.foldl (step host) {})
  have hlast := (shows_replayAll host hshows hprose hearly).1
  refine ⟨hnone, ?_⟩
  rw [written_flush host hshows.plain.on hlast.plain]
  exact written_resolve hlast hnone

/-- A host for which every byte is one column. -/
def exampleHost : MdHost := ⟨List.length, id, lit "\u2022 ", fun _ => 1, fun _ => ([], false)⟩

/-- Prices that are no formula, a path, and spans that the ends of their lines close
again. -/
def exampleChunks : List Bytes :=
  [lit "It costs $5, or $", lit "6 (at $a", lit "b).\nSee C:\\", lit "temp and \\",
    lit "(x, y\nlast $line"]

theorem shows_feeds_example :
    ((exampleChunks.foldl (feed exampleHost) {}).replayAll exampleHost).math = none ∧
      (((exampleChunks.foldl (feed exampleHost) {}).flush exampleHost).written =
          exampleChunks.flatten ∨
        ((exampleChunks.foldl (feed exampleHost) {}).flush exampleHost).written ++ [ch '\n'] =
          exampleChunks.flatten) :=
  shows_feeds exampleHost (by decide) (by decide +kernel) (by decide +kernel)

end MdStream

end UAgent
