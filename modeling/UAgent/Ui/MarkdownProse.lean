/-
UAgent/Ui/MarkdownProse.lean

Prose in which dollars and backslashes may be mistaken for mathematics, and
what the renderer has made of such a text: what it has written and what it
still holds are, one behind the other, the text it has read (`Shows`).

The inline step keeps that wherever it is taken with no span open
(`shows_inlineChar`).
-/
import UAgent.Ui.Markdown

namespace UAgent

open Bytes

/-! ### Prose -/

/-- A byte that the terminal prints as it is and that means nothing within a line. -/
def isOrdinary (c : UInt8) : Bool :=
  (0x20 ≤ c || c = ch '\t') && c ≠ 0x7f && c ∉ lit "$\\*`"

/-- A byte that means nothing within a line and something where one begins. -/
def isLineMarker (c : UInt8) : Bool := c ∈ lit "#~-|\t"

/-- A byte that a line of prose begins with. -/
def isLineStart (c : UInt8) : Bool := isOrdinary c && !isLineMarker c && c ≠ ch ' '

/-- What a backslash stands in front of: a bracket that opens a span, or a character
it does not escape. -/
def isSlashed (c : UInt8) : Bool :=
  c = ch '(' || c = ch '[' ||
    isOrdinary c && !markdownEscapable c && c ≠ ch ' ' && c ≠ ch '\t'

/-- What prose may go on with behind `last`. -/
def MayFollow (last : Option UInt8) (c : UInt8) : Prop :=
  if last = none ∨ last = some (ch '\n') then isLineStart c = true
  else if last = some (ch '\\') then isSlashed c = true
  else isOrdinary c = true ∨ c = ch '$' ∨ c = ch '\\' ∨ c = ch '\n'

instance (last : Option UInt8) (c : UInt8) : Decidable (MayFollow last c) := by
  unfold MayFollow; infer_instance

/-- A text that prose may go on with behind `last`. -/
def Spelled : Option UInt8 → Bytes → Prop
  | _, [] => True
  | last, c :: text => MayFollow last c ∧ Spelled (some c) text

instance decidableSpelled : (last : Option UInt8) → (text : Bytes) → Decidable (Spelled last text)
  | _, [] => isTrue trivial
  | _, c :: text =>
    let _ := decidableSpelled (some c) text
    inferInstanceAs (Decidable (_ ∧ _))

/-- The bytes of prose. -/
def isProse (c : UInt8) : Bool := isOrdinary c || c = ch '$' || c = ch '\\' || c = ch '\n'

theorem isProse_of_isOrdinary {c : UInt8} (h : isOrdinary c = true) : isProse c = true := by
  simp [isProse, h]

theorem isOrdinary_of_isSlashed {c : UInt8} (h : isSlashed c = true) : isOrdinary c = true := by
  simp only [isSlashed, Bool.or_eq_true, Bool.and_eq_true, decide_eq_true_eq] at h
  rcases h with (rfl | rfl) | h
  · decide
  · decide
  · exact h.1.1.1

theorem MayFollow.isProse {last : Option UInt8} {c : UInt8} (h : MayFollow last c) :
    isProse c = true := by
  unfold MayFollow at h
  split_ifs at h
  · simp only [isLineStart, Bool.and_eq_true] at h
    exact isProse_of_isOrdinary h.1.1
  · exact isProse_of_isOrdinary (isOrdinary_of_isSlashed h)
  · rcases h with h | rfl | rfl | rfl
    · exact isProse_of_isOrdinary h
    all_goals rfl

theorem MayFollow.lineStart {c : UInt8} (h : MayFollow (some (ch '\n')) c) :
    isLineStart c = true := by
  rwa [MayFollow, if_pos (.inr rfl)] at h

theorem MayFollow.slashed {c : UInt8} (h : MayFollow (some (ch '\\')) c) :
    isSlashed c = true := by
  rwa [MayFollow, if_neg (by decide), if_pos rfl] at h

theorem spelled_append {last : Option UInt8} {a b : Bytes} :
    Spelled last (a ++ b) ↔ Spelled last a ∧ Spelled (a.getLast?.or last) b := by
  induction a generalizing last with
  | nil => exact ⟨fun h => ⟨trivial, h⟩, And.right⟩
  | cons c a ih =>
    have hlast : (c :: a).getLast?.or last = a.getLast?.or (some c) := by
      cases a with
      | nil => rfl
      | cons d a =>
        rw [List.getLast?_cons_cons, List.getLast?_eq_some_getLast (List.cons_ne_nil d a)]
        rfl
    rw [List.cons_append, Spelled, Spelled, ih, and_assoc, hlast]

theorem Spelled.isProse {last : Option UInt8} {text : Bytes} (h : Spelled last text) :
    ∀ c ∈ text, isProse c = true := by
  induction text generalizing last with
  | nil => simp
  | cons d text ih =>
    intro c hc
    rcases List.mem_cons.mp hc with rfl | hc
    · exact h.1.isProse
    · exact ih h.2 c hc

/-! ### Openers -/

/-- Whether `c` behind `last` opens a span, where none is open. -/
def opens (last : Option UInt8) (c : UInt8) : Bool :=
  (last = some (ch '$') && c ≠ ch '\n' && c ≠ ch ' ' && c ≠ ch '\t') ||
    (last = some (ch '\\') && (c = ch '(' || c = ch '['))

/-- Whether a span opens in a text before its end. -/
def opensEarly : Option UInt8 → Bytes → Bool
  | _, [] => false
  | last, c :: text => (opens last c && text ≠ []) || opensEarly (some c) text

/-- Whether a span opens with the last byte of a text. -/
def opensLast : Option UInt8 → Bytes → Bool
  | _, [] => false
  | last, c :: text => (opens last c && text = []) || opensLast (some c) text

theorem opensEarly_of_length_le_one {text : Bytes} (h : text.length ≤ 1) (last : Option UInt8) :
    opensEarly last text = false := by
  rcases text with - | ⟨c, - | ⟨d, text⟩⟩
  · rfl
  · simp [opensEarly]
  · simp at h

namespace MdStream

/-! ### What has become of a text -/

/-- The text that has been written. -/
def written (s : MdStream) : Bytes := s.out.filterMap Written.text?

/-- A line end that is held back. -/
def blank (s : MdStream) : Bytes := if s.blankHeld = 0 then [] else [ch '\n']

/-- What has been read and is still held, in the order it was read. -/
def pending (s : MdStream) : Bytes :=
  s.blank ++
    match s.math with
    | none => (if s.dollar then [ch '$'] else []) ++ s.pre ++ (if s.slash then [ch '\\'] else [])
    | some kind => mathOpen kind ++ s.heldText

/-- Nothing but mathematics is going on. -/
structure Plain (s : MdStream) : Prop where
  on : s.on = true
  bold : s.bold = false
  ital : s.ital = false
  code : s.code = false
  star : s.star = 0
  heading : s.heading = false
  fence : s.fence = false
  fencehead : s.fencehead = false
  intable : s.intable = false
  tablemode : s.tablemode = false
  table : s.table = []

/-- What has been written and what is held are what has been read. -/
structure Shows (s : MdStream) (read : Bytes) : Prop where
  plain : s.Plain
  text : s.written ++ s.pending = read
  blank : s.blankHeld ≠ 0 → s.pre = [] ∧ s.math = none ∧ s.dollar = false ∧ s.slash = false
  pre : s.pre ≠ [] → s.math = none ∧ s.slash = false ∧ s.linestart = true
  indent : ∀ c ∈ s.pre, c = ch ' '
  dollar : s.dollar = true → s.math = none ∧ s.slash = false
  mathDollar : s.mathDollar = true → s.math = some .display ∧ s.slash = false
  inline : s.math = some .inline → s.mathText ≠ [] ∨ s.slash = true

/-- Nothing is held, but perhaps a line end. -/
structure Idle (s : MdStream) : Prop where
  math : s.math = none
  dollar : s.dollar = false
  slash : s.slash = false
  pre : s.pre = []

@[simp] theorem written_put (s : MdStream) (text : Bytes) :
    (s.put text).written = s.written ++ text := by
  have htext : (text.map Written.text).filterMap Written.text? = text := by
    rw [List.filterMap_map]
    exact List.filterMap_some
  rw [written, written, put, List.filterMap_append, htext]

@[simp] theorem written_style (s : MdStream) (style : MdStyle) :
    (s.style style).written = s.written := by
  rw [written, written, MdStream.style, List.filterMap_append]
  exact List.append_nil _

variable {s : MdStream} {read : Bytes}

theorem Idle.pending (h : s.Idle) : s.pending = s.blank := by
  unfold MdStream.pending
  rw [h.math, h.dollar, h.slash, h.pre]
  exact List.append_nil _

/-- Text that is written behind what was held of line ends. -/
theorem written_pc (s : MdStream) (c : UInt8) : (s.pc c).written = s.written ++ s.blank ++ [c] := by
  rw [pc, written_put, releaseBlanks, MdStream.blank]
  split_ifs
  · rw [List.append_nil]
  · rw [written_put]
    rfl

theorem Plain.releaseBlanks (h : s.Plain) : s.releaseBlanks.Plain := by
  unfold MdStream.releaseBlanks
  split_ifs
  · exact h
  · exact { h with }

theorem Idle.releaseBlanks (h : s.Idle) : s.releaseBlanks.Idle := by
  unfold MdStream.releaseBlanks
  split_ifs
  · exact h
  · exact { h with }

@[simp] theorem blankHeld_releaseBlanks (s : MdStream) : s.releaseBlanks.blankHeld = 0 := by
  unfold MdStream.releaseBlanks
  split_ifs with h
  · exact h
  · rfl

/-- Where nothing is held, what is written is what was read. -/
theorem Idle.shows (h : s.Idle) (hplain : s.Plain) (hdollar : s.mathDollar = false)
    (htext : s.written ++ s.blank = read) : s.Shows read where
  plain := hplain
  text := h.pending ▸ htext
  blank _ := ⟨h.pre, h.math, h.dollar, h.slash⟩
  pre hpre := absurd h.pre hpre
  indent c hc := by rw [h.pre] at hc; cases hc
  dollar hd := absurd hd (Bool.eq_false_iff.mp h.dollar)
  mathDollar hd := absurd hd (Bool.eq_false_iff.mp hdollar)
  inline hk := by rw [h.math] at hk; cases hk

theorem Shows.mathDollar_of_none (h : s.Shows read) (hmath : s.math = none) :
    s.mathDollar = false := by
  rw [Bool.eq_false_iff]
  intro hd
  have hkind := (h.mathDollar hd).1
  rw [hmath] at hkind
  cases hkind

theorem Shows.blankHeld_of_dollar (h : s.Shows read) (hd : s.dollar = true) : s.blankHeld = 0 := by
  by_contra hne
  exact absurd hd (Bool.eq_false_iff.mp ((h.blank hne).2.2.1))

theorem Shows.blankHeld_of_slash (h : s.Shows read) (hs : s.slash = true) : s.blankHeld = 0 := by
  by_contra hne
  exact absurd hs (Bool.eq_false_iff.mp ((h.blank hne).2.2.2))

theorem blank_of_eq_zero (h : s.blankHeld = 0) : s.blank = [] := if_pos h

/-- A character goes to the terminal. -/
theorem Shows.pc (h : s.Shows read) (hidle : s.Idle) (c : UInt8) :
    (s.pc c).Shows (read ++ [c]) := by
  have hidle' : (s.pc c).Idle := { hidle.releaseBlanks with }
  have hplain : (s.pc c).Plain := { h.plain.releaseBlanks with }
  have hblank : (s.pc c).blankHeld = 0 := blankHeld_releaseBlanks s
  have hdollar : (s.pc c).mathDollar = false := by
    show s.releaseBlanks.mathDollar = false
    unfold MdStream.releaseBlanks
    split_ifs <;> exact h.mathDollar_of_none hidle.math
  refine hidle'.shows hplain hdollar ?_
  rw [blank_of_eq_zero hblank, List.append_nil, written_pc, ← h.text, hidle.pending]

/-- A dollar that is held is the last that was read. -/
theorem Shows.dropDollar (h : s.Shows read) (hd : s.dollar = true) (hpre : s.pre = []) :
    ∃ earlier, read = earlier ++ [ch '$'] ∧ ({ s with dollar := false } : MdStream).Idle ∧
      ({ s with dollar := false } : MdStream).Shows earlier := by
  obtain ⟨hmath, hslash⟩ := h.dollar hd
  have hidle : ({ s with dollar := false } : MdStream).Idle := ⟨hmath, rfl, hslash, hpre⟩
  have hblank := blank_of_eq_zero (h.blankHeld_of_dollar hd)
  refine ⟨s.written, ?_, hidle, hidle.shows { h.plain with } (h.mathDollar_of_none hmath) ?_⟩
  · rw [← h.text, pending, hblank, hmath, hd, hpre, hslash]
    rfl
  · show s.written ++ s.blank = s.written
    rw [hblank, List.append_nil]

/-- So is a backslash. -/
theorem Shows.dropSlash (h : s.Shows read) (hs : s.slash = true) (hmath : s.math = none)
    (hd : s.dollar = false) :
    ∃ earlier, read = earlier ++ [ch '\\'] ∧ ({ s with slash := false } : MdStream).Idle ∧
      ({ s with slash := false } : MdStream).Shows earlier := by
  have hpre : s.pre = [] := by
    by_contra hne
    exact absurd hs (Bool.eq_false_iff.mp ((h.pre hne).2.1))
  have hidle : ({ s with slash := false } : MdStream).Idle := ⟨hmath, hd, rfl, hpre⟩
  have hblank := blank_of_eq_zero (h.blankHeld_of_slash hs)
  refine ⟨s.written, ?_, hidle, hidle.shows { h.plain with } (h.mathDollar_of_none hmath) ?_⟩
  · rw [← h.text, pending, hblank, hmath, hs, hpre, hd]
    rfl
  · show s.written ++ s.blank = s.written
    rw [hblank, List.append_nil]

theorem pending_of_none (h : s.math = none) :
    s.pending = s.blank ++
      ((if s.dollar then [ch '$'] else []) ++ s.pre ++ (if s.slash then [ch '\\'] else [])) := by
  rw [pending, h]

theorem pending_of_math {kind : MathKind} (h : s.math = some kind) :
    s.pending = s.blank ++ (mathOpen kind ++ s.heldText) := by
  rw [pending, h]

theorem heldText_of_idle (hs : s.slash = false) (hd : s.mathDollar = false) :
    s.heldText = s.mathText := by
  rw [heldText, hs, hd]
  exact (List.append_nil _).trans (List.append_nil _)

theorem heldText_openMath (hs : s.slash = false) (hd : s.mathDollar = false) (kind : MathKind) :
    (s.openMath kind).heldText = [] := heldText_of_idle hs hd

/-- A span is open, and nothing else is held. -/
theorem shows_of_math {kind : MathKind} (hplain : s.Plain) (hmath : s.math = some kind)
    (hblank : s.blankHeld = 0) (hpre : s.pre = []) (hd : s.dollar = false)
    (hm : s.mathDollar = true → kind = .display ∧ s.slash = false)
    (hinline : kind = .inline → s.mathText ≠ [] ∨ s.slash = true)
    (htext : s.written ++ (mathOpen kind ++ s.heldText) = read) : s.Shows read where
  plain := hplain
  text := by
    rw [pending_of_math hmath, blank_of_eq_zero hblank]
    exact htext
  blank hne := absurd hblank hne
  pre hne := absurd hpre hne
  indent c hc := by rw [hpre] at hc; cases hc
  dollar htrue := absurd htrue (Bool.eq_false_iff.mp hd)
  mathDollar htrue := by
    obtain ⟨rfl, hs⟩ := hm htrue
    exact ⟨hmath, hs⟩
  inline hk := hinline (Option.some.inj (hmath.symm.trans hk))

/-- A span opens behind what was read. -/
theorem Shows.openMath (h : s.Shows read) (hidle : s.Idle) (hblank : s.blankHeld = 0)
    {kind : MathKind} (hkind : kind ≠ .inline) :
    (s.openMath kind).Shows (read ++ mathOpen kind) := by
  have hdollar := h.mathDollar_of_none hidle.math
  have hheld : (s.openMath kind).heldText = [] := heldText_of_idle hidle.slash hdollar
  refine shows_of_math { h.plain with } rfl hblank hidle.pre hidle.dollar
    (fun htrue => absurd htrue (Bool.eq_false_iff.mp hdollar)) (fun hk => absurd hk hkind) ?_
  rw [hheld, List.append_nil, ← h.text, hidle.pending, blank_of_eq_zero hblank, List.append_nil]
  exact congrArg (· ++ mathOpen kind) (written_style s .math)

/-- A span that a dollar opens holds the character behind it. -/
theorem Shows.openInline (h : s.Shows read) (hidle : s.Idle) (hblank : s.blankHeld = 0)
    (c : UInt8) :
    ((s.openMath .inline).firstMathChar c).Shows (read ++ [ch '$', c]) := by
  have hdollar := h.mathDollar_of_none hidle.math
  have hread : s.written = read := by
    rw [← h.text, hidle.pending, blank_of_eq_zero hblank, List.append_nil]
  have hopened : (s.openMath .inline).written = s.written := written_style s .math
  unfold firstMathChar
  rw [if_neg (show ¬(s.openMath .inline).slash = true from Bool.eq_false_iff.mp hidle.slash)]
  split_ifs with hback
  · refine shows_of_math { h.plain with } rfl hblank hidle.pre hidle.dollar
      (fun htrue => absurd htrue (Bool.eq_false_iff.mp hdollar)) (fun _ => .inr rfl) ?_
    show (s.openMath .inline).written ++ (mathOpen .inline ++ heldText _) = _
    rw [hopened, hread, heldText]
    show read ++ (mathOpen .inline ++ ([] ++ [ch '\\'] ++ if s.mathDollar then _ else _)) = _
    rw [hdollar, hback]
    rfl
  · have hheld : ((s.openMath .inline).hold [c]).heldText = [c] :=
      heldText_of_idle hidle.slash hdollar
    refine shows_of_math { h.plain with } rfl hblank hidle.pre hidle.dollar
      (fun htrue => absurd htrue (Bool.eq_false_iff.mp hdollar))
      (fun _ => .inl (List.cons_ne_nil c [])) ?_
    rw [hheld]
    show (s.openMath .inline).written ++ (mathOpen .inline ++ [c]) = _
    rw [hopened, hread]
    rfl

/-! ### The inline step -/

variable (host : MdHost)

/-- A line ends. -/
theorem Shows.endLine (h : s.Shows read) (hidle : s.Idle) (hblank : s.blankHeld = 0) :
    (s.endLine host).Shows (read ++ [ch '\n']) ∧ (s.endLine host).Idle := by
  have hdollar := h.mathDollar_of_none hidle.math
  have hread : s.written = read := by
    rw [← h.text, hidle.pending, blank_of_eq_zero hblank, List.append_nil]
  have hstyles : s.dropStyles = s := by
    unfold dropStyles
    rw [h.plain.bold, h.plain.ital, h.plain.code, h.plain.heading]
    rfl
  unfold MdStream.endLine newline
  rw [hstyles]
  split_ifs with hwidth
  · refine ⟨Idle.shows { hidle with } { h.plain with } hdollar ?_, { hidle with }⟩
    exact congrArg (· ++ [ch '\n']) hread
  · refine ⟨Idle.shows { hidle with } { h.plain with } hdollar ?_, { hidle with }⟩
    show (s.put [ch '\n']).written ++ s.blank = _
    rw [blank_of_eq_zero hblank, List.append_nil, written_put, hread]

/-- A dollar is held. -/
theorem Shows.holdDollar (h : s.Shows read) (hidle : s.Idle) (hblank : s.blankHeld = 0) :
    ({ s with dollar := true } : MdStream).Shows (read ++ [ch '$']) where
  plain := { h.plain with }
  text := by
    have hpending : ({ s with dollar := true } : MdStream).pending = [ch '$'] := by
      refine (pending_of_none (s := { s with dollar := true }) hidle.math).trans ?_
      show s.blank ++ ([ch '$'] ++ s.pre ++ if s.slash then _ else _) = _
      rw [blank_of_eq_zero hblank, hidle.pre, hidle.slash]
      rfl
    rw [hpending, ← h.text, hidle.pending, blank_of_eq_zero hblank, List.append_nil]
    rfl
  blank hne := absurd hblank hne
  pre hne := absurd hidle.pre hne
  indent c hc := by
    have hc : c ∈ s.pre := hc
    rw [hidle.pre] at hc
    cases hc
  dollar _ := ⟨hidle.math, hidle.slash⟩
  mathDollar htrue := absurd htrue (Bool.eq_false_iff.mp (h.mathDollar_of_none hidle.math))
  inline hk := by
    have hk : s.math = _ := hk
    rw [hidle.math] at hk
    cases hk

/-- A backslash is held. -/
theorem Shows.holdSlash (h : s.Shows read) (hidle : s.Idle) (hblank : s.blankHeld = 0) :
    ({ s with slash := true } : MdStream).Shows (read ++ [ch '\\']) where
  plain := { h.plain with }
  text := by
    have hpending : ({ s with slash := true } : MdStream).pending = [ch '\\'] := by
      refine (pending_of_none (s := { s with slash := true }) hidle.math).trans ?_
      show s.blank ++ ((if s.dollar then _ else _) ++ s.pre ++ [ch '\\']) = _
      rw [blank_of_eq_zero hblank, hidle.pre, hidle.dollar]
      rfl
    rw [hpending, ← h.text, hidle.pending, blank_of_eq_zero hblank, List.append_nil]
    rfl
  blank hne := absurd hblank hne
  pre hne := absurd hidle.pre hne
  indent c hc := by
    have hc : c ∈ s.pre := hc
    rw [hidle.pre] at hc
    cases hc
  dollar htrue := absurd htrue (Bool.eq_false_iff.mp hidle.dollar)
  mathDollar htrue := absurd htrue (Bool.eq_false_iff.mp (h.mathDollar_of_none hidle.math))
  inline hk := by
    have hk : s.math = _ := hk
    rw [hidle.math] at hk
    cases hk

/-- What an inline step behind `last` leaves held of its character: a dollar,
a backslash, or a span that it opened. -/
structure Inlined (last : Option UInt8) (c : UInt8) (s : MdStream) : Prop where
  pre : s.pre = []
  mathDollar : s.mathDollar = false
  dollar : s.dollar = true → c = ch '$'
  slash : s.slash = true → c = ch '\\'
  math : s.math ≠ none → opens last c = true ∧ s.heldText.length ≤ 1

theorem Idle.inlined (h : s.Idle) (hd : s.mathDollar = false) (last : Option UInt8) (c : UInt8) :
    Inlined last c s where
  pre := h.pre
  mathDollar := hd
  dollar htrue := absurd htrue (Bool.eq_false_iff.mp h.dollar)
  slash htrue := absurd htrue (Bool.eq_false_iff.mp h.slash)
  math hne := absurd h.math hne

theorem Idle.inlined_openInline (h : s.Idle) (hd : s.mathDollar = false) {last : Option UInt8}
    {c : UInt8} (hopens : opens last c = true) :
    Inlined last c ((s.openMath .inline).firstMathChar c) := by
  unfold firstMathChar
  rw [if_neg (show ¬(s.openMath .inline).slash = true from Bool.eq_false_iff.mp h.slash)]
  split_ifs with hback
  · refine ⟨h.pre, hd, fun htrue => absurd htrue (Bool.eq_false_iff.mp h.dollar), fun _ => hback,
      fun _ => ⟨hopens, ?_⟩⟩
    rw [heldText]
    show ([] ++ [ch '\\'] ++ if s.mathDollar then _ else _).length ≤ 1
    rw [hd]
    rfl
  · refine ⟨h.pre, hd, fun htrue => absurd htrue (Bool.eq_false_iff.mp h.dollar),
      fun htrue => absurd htrue (Bool.eq_false_iff.mp h.slash), fun _ => ⟨hopens, ?_⟩⟩
    exact (congrArg List.length
      (heldText_of_idle (s := (s.openMath .inline).hold [c]) h.slash hd)).le

theorem shows_inlineMarker (h : s.Shows read) (hidle : s.Idle) {c : UInt8}
    (hprose : isProse c = true) (hblank : s.blankHeld ≠ 0 → isLineStart c = true)
    (last : Option UInt8) :
    (s.inlineMarker host c).Shows (read ++ [c]) ∧ Inlined last c (s.inlineMarker host c) := by
  have hzero : isLineStart c = false → s.blankHeld = 0 := fun hc => by
    by_contra hne
    exact absurd (hblank hne) (Bool.eq_false_iff.mp hc)
  have hdollar := h.mathDollar_of_none hidle.math
  unfold inlineMarker
  by_cases hd : c = ch '$'
  · rw [if_pos ⟨hd, h.plain.code⟩]
    subst hd
    refine ⟨h.holdDollar hidle (hzero (by decide)), hidle.pre, hdollar, fun _ => rfl,
      fun htrue => absurd htrue (Bool.eq_false_iff.mp hidle.slash),
      fun hne => absurd hidle.math hne⟩
  rw [if_neg fun hc => hd hc.1]
  by_cases hs : c = ch '\\'
  · rw [if_pos ⟨hs, h.plain.code⟩]
    subst hs
    refine ⟨h.holdSlash hidle (hzero (by decide)), hidle.pre, hdollar,
      fun htrue => absurd htrue (Bool.eq_false_iff.mp hidle.dollar), fun _ => rfl,
      fun hne => absurd hidle.math hne⟩
  rw [if_neg fun hc => hs hc.1]
  by_cases hstar : c = ch '*'
  · -- Neither a star nor a backtick is prose.
    subst hstar
    exact absurd hprose (by decide)
  rw [if_neg fun hc => hstar hc.1]
  by_cases htick : c = ch '`'
  · subst htick
    exact absurd hprose (by decide)
  rw [if_neg htick]
  by_cases hline : c = ch '\n'
  · rw [if_pos hline]
    subst hline
    obtain ⟨hshows, hidle'⟩ := h.endLine host hidle (hzero (by decide))
    exact ⟨hshows, hidle'.inlined (hshows.mathDollar_of_none hidle'.math) last _⟩
  · rw [if_neg hline]
    have hshows := h.pc hidle c
    have hidle' : (s.pc c).Idle := { hidle.releaseBlanks with }
    exact ⟨hshows, hidle'.inlined (hshows.mathDollar_of_none hidle'.math) last c⟩

/-- Behind a backslash a bracket opens a span, and what is not escaped is written with
the backslash. -/
theorem shows_afterSlash (h : s.Shows read) (hidle : s.Idle) (hblank : s.blankHeld = 0)
    {c : UInt8} (hc : isSlashed c = true) :
    (s.afterSlash host c).Shows (read ++ [ch '\\', c]) ∧
      Inlined (some (ch '\\')) c (s.afterSlash host c) := by
  have hdollar := h.mathDollar_of_none hidle.math
  unfold afterSlash
  by_cases hbracket : c = ch '(' ∨ c = ch '['
  · rw [if_pos ⟨h.plain.code, hbracket⟩]
    -- The two characters open a span and are its opener.
    set kind : MathKind := if c = ch '(' then .paren else .bracket with hkind
    have hopens : opens (some (ch '\\')) c = true := by
      rcases hbracket with rfl | rfl <;> rfl
    have hopen : [ch '\\', c] = mathOpen kind := by
      rcases hbracket with rfl | rfl <;> rfl
    have hne : kind ≠ .inline := by
      rcases hbracket with rfl | rfl <;> decide
    rw [hopen]
    refine ⟨h.openMath hidle hblank hne, hidle.pre, hdollar,
      fun htrue => absurd htrue (Bool.eq_false_iff.mp hidle.dollar),
      fun htrue => absurd htrue (Bool.eq_false_iff.mp hidle.slash), fun _ => ⟨hopens, ?_⟩⟩
    exact (congrArg List.length (heldText_openMath hidle.slash hdollar kind)).le.trans
      (Nat.zero_le 1)
  · -- The backslash is written, and the character stands for itself.
    rw [if_neg fun hboth => hbracket hboth.2]
    obtain ⟨hordinary, hplain⟩ : isOrdinary c = true ∧ markdownEscapable c = false := by
      simp only [isSlashed, Bool.or_eq_true, Bool.and_eq_true, decide_eq_true_eq,
        Bool.not_eq_true'] at hc
      exact (hc.resolve_left hbracket).1.1
    have hpc := h.pc hidle (ch '\\')
    have hidle' : (s.pc (ch '\\')).Idle := { hidle.releaseBlanks with }
    have hzero : (s.pc (ch '\\')).blankHeld = 0 := blankHeld_releaseBlanks s
    rw [if_neg fun hboth => absurd hboth.2 (Bool.eq_false_iff.mp hplain)]
    unfold inlineStar
    rw [if_pos hpc.plain.star]
    have hstep := shows_inlineMarker host hpc hidle' (isProse_of_isOrdinary hordinary)
      (fun hne => absurd hzero hne) (some (ch '\\'))
    rwa [List.append_assoc] at hstep

theorem shows_inlineSlash (h : s.Shows read) (hmath : s.math = none) (hd : s.dollar = false)
    (hpre : s.pre = []) {last : Option UInt8} {c : UInt8} (hprose : isProse c = true)
    (hblank : s.blankHeld ≠ 0 → isLineStart c = true)
    (hslash : s.slash = true → last = some (ch '\\') ∧ isSlashed c = true) :
    (s.inlineSlash host c).Shows (read ++ [c]) ∧ Inlined last c (s.inlineSlash host c) := by
  unfold inlineSlash
  by_cases hs : s.slash = true
  · rw [if_pos hs]
    obtain ⟨rfl, hslashed⟩ := hslash hs
    obtain ⟨earlier, rfl, hidle, hshows⟩ := h.dropSlash hs hmath hd
    rw [List.append_assoc]
    exact shows_afterSlash host hshows hidle (h.blankHeld_of_slash hs) hslashed
  · rw [if_neg hs]
    have hidle : s.Idle := ⟨hmath, hd, Bool.eq_false_iff.mpr hs, hpre⟩
    unfold inlineStar
    rw [if_pos h.plain.star]
    exact shows_inlineMarker host h hidle hprose hblank last

/-- The inline step, where no span is open. -/
theorem shows_inlineChar (h : s.Shows read) (hmath : s.math = none) (hpre : s.pre = [])
    {last : Option UInt8} {c : UInt8} (hprose : isProse c = true)
    (hblank : s.blankHeld ≠ 0 → isLineStart c = true)
    (hdollar : s.dollar = true → last = some (ch '$'))
    (hslash : s.slash = true → last = some (ch '\\') ∧ isSlashed c = true) :
    (s.inlineChar host c).Shows (read ++ [c]) ∧ Inlined last c (s.inlineChar host c) := by
  unfold inlineChar
  by_cases hd : s.dollar = true
  · rw [if_pos hd]
    obtain ⟨earlier, rfl, hidle, hshows⟩ := h.dropDollar hd hpre
    have hzero : s.blankHeld = 0 := h.blankHeld_of_dollar hd
    have hmathDollar := hshows.mathDollar_of_none hidle.math
    unfold afterDollar
    by_cases hc : c = ch '$'
    · -- Two dollars open a display.
      rw [if_pos hc, hc, List.append_assoc]
      refine ⟨hshows.openMath hidle hzero (by decide), hidle.pre, hmathDollar, fun _ => rfl,
        fun htrue => absurd htrue (Bool.eq_false_iff.mp hidle.slash), fun _ => ⟨?_, ?_⟩⟩
      · rw [hdollar hd]
        rfl
      · exact (congrArg List.length (heldText_openMath hidle.slash hmathDollar _)).le.trans
          (Nat.zero_le 1)
    rw [if_neg hc]
    split_ifs with hword
    · have hopens : opens last c = true := by
        rw [hdollar hd]
        simp [opens, hword]
      rw [List.append_assoc]
      exact ⟨hshows.openInline hidle hzero c, hidle.inlined_openInline hmathDollar hopens⟩
    · -- The dollar was the text's own.
      have hpc := hshows.pc hidle (ch '$')
      have hidle' : (({ s with dollar := false } : MdStream).pc (ch '$')).Idle :=
        { hidle.releaseBlanks with }
      refine shows_inlineSlash host hpc hidle'.math hidle'.dollar hidle'.pre hprose ?_ ?_
      · intro hne
        exact absurd (blankHeld_releaseBlanks _) hne
      · exact fun htrue => absurd htrue (Bool.eq_false_iff.mp hidle'.slash)
  · rw [if_neg hd]
    exact shows_inlineSlash host h hmath (Bool.eq_false_iff.mpr hd) hpre hprose hblank hslash

end MdStream

end UAgent
