/-
UAgent/Core/RepeatedCuts.lean

A text that `HeadTail` (src/include/core/output_buffer.h) cuts again, to the
length of what it made of it.  The cuts fall on codepoint boundaries, so what is
made can be shorter than the cap, and then its length leaves the two ends other
halves.

Main result: `headTail_twice`.  The same comes out where both ends of the cut
are half of what is kept (`CutLasts`), and for a text that holds no omission
marker of its own only there (`cutLasts_of_twice`).
-/
import UAgent.Core.OutputBuffer
import Mathlib.Data.Nat.Digits.Lemmas
import Mathlib.Data.Nat.Log

namespace UAgent

open Bytes Json

/-! ### Markers -/

/-- The length of a number in decimal. -/
theorem length_decimal (n : Nat) : (decimal n).length = if n = 0 then 1 else Nat.log 10 n + 1 := by
  unfold decimal
  split_ifs with hn
  · decide
  · rw [List.length_map, List.length_reverse, Nat.length_digits 10 n (by decide) hn]

theorem length_omittedMarker (n : Nat) :
    (omittedMarker n).length = 27 + Nat.log 10 n := by
  have hopen : (lit "\n... [").length = 6 := by decide
  have hclose : (lit " bytes omitted] ...\n").length = 20 := by decide
  rw [omittedMarker, List.length_append, List.length_append, hopen, hclose, length_decimal]
  split_ifs with hn
  · rw [hn, Nat.log_zero_right]
  · omega

theorem length_omittedMarker_mono {m n : Nat} (h : m ≤ n) :
    (omittedMarker m).length ≤ (omittedMarker n).length := by
  rw [length_omittedMarker, length_omittedMarker]
  exact Nat.add_le_add_left (Nat.log_mono_right h) _

/-- A number that is smaller by no more than the marker's length is at most one
digit shorter. -/
theorem length_omittedMarker_sub {m n : Nat} (h : n ≤ m + (omittedMarker n).length) :
    (omittedMarker n).length ≤ (omittedMarker m).length + 1 := by
  rw [length_omittedMarker] at h
  rw [length_omittedMarker, length_omittedMarker]
  by_cases hshort : Nat.log 10 n ≤ 1
  · omega
  · obtain ⟨d, hd⟩ : ∃ d, Nat.log 10 n = d + 2 := ⟨Nat.log 10 n - 2, by omega⟩
    have hpow : 10 ^ (d + 2) ≤ n := by
      rw [← hd]
      exact Nat.pow_log_le_self 10 (by rintro rfl; simp at hd)
    have hten : d + 1 ≤ 10 ^ d := Nat.lt_pow_self (by decide)
    have hexpand : 10 ^ (d + 2) = 100 * 10 ^ d := by ring
    have hstep : 10 ^ (d + 1) = 10 * 10 ^ d := by ring
    have hlog : d + 1 ≤ Nat.log 10 m := Nat.le_log_of_pow_le (by decide) (by omega)
    omega

/-! ### The two ends -/

/-- What is kept of the end of a text. -/
def keptEnd (text : Bytes) (keep : Nat) : Nat := text.length - cutTail text keep

/-- A text cut in the middle. -/
def cutText (text : Bytes) (keep omitted : Nat) : Bytes :=
  text.take (cutHead text keep) ++ omittedMarker omitted ++ text.drop (cutTail text keep)

/-- Both ends are half of what is kept, the second one byte more where it is
odd. -/
def EvenCut (text : Bytes) (keep : Nat) : Prop :=
  0 < keptEnd text keep ∧ cutHead text keep ≤ keptEnd text keep ∧
    keptEnd text keep ≤ cutHead text keep + 1

instance (text : Bytes) (keep : Nat) : Decidable (EvenCut text keep) := by
  unfold EvenCut
  infer_instance

/-- The marker that is written for a cap: it names the bytes between the two
ends of what it leaves room for. -/
structure SettledCut (text : Bytes) (cap keep omitted : Nat) : Prop where
  pos : 0 < keep
  room : keep + (omittedMarker omitted).length = cap
  between : cutTail text keep - cutHead text keep = omitted

section Ends

variable {text : Bytes} {cap keep keep' omitted : Nat}

theorem cutHead_le_length : cutHead text keep ≤ text.length :=
  (stepBack_le _ _).trans (min_le_right _ _)

theorem cutHead_le : cutHead text keep ≤ keep / 2 := boundaryBefore_le _ _

/-- The ends of a cut text do not overlap. -/
theorem cutTail_eq (h : keep ≤ text.length) :
    cutTail text keep = utf8BoundaryAfter text (text.length - (keep - keep / 2)) := by
  have hhead := @cutHead_le text keep
  have hafter := @le_boundaryAfter text (text.length - (keep - keep / 2)) (Nat.sub_le _ _)
  exact max_eq_right (by omega)

theorem cutHead_le_cutTail : cutHead text keep ≤ cutTail text keep := le_max_left _ _

theorem cutTail_le_length : cutTail text keep ≤ text.length :=
  max_le cutHead_le_length (boundaryAfter_le _ _)

theorem keptEnd_le (h : keep ≤ text.length) : keptEnd text keep ≤ keep - keep / 2 := by
  have hafter := @le_boundaryAfter text (text.length - (keep - keep / 2)) (Nat.sub_le _ _)
  rw [keptEnd, cutTail_eq h]
  omega

theorem cutHead_mono (h : keep ≤ keep') : cutHead text keep ≤ cutHead text keep' := by
  have hle : cutHead text keep ≤ min (keep' / 2) text.length :=
    le_min (cutHead_le.trans (Nat.div_le_div_right h)) cutHead_le_length
  rcases boundary_stepBack text (min (keep / 2) text.length) with hzero | hboundary
  · have hhead : cutHead text keep = 0 := hzero
    rw [hhead]
    exact Nat.zero_le _
  · exact le_stepBack hle hboundary

theorem keptEnd_mono (h : keep ≤ keep') (hle : keep' ≤ text.length) :
    keptEnd text keep ≤ keptEnd text keep' := by
  have hafter := @le_boundaryAfter text (text.length - (keep - keep / 2)) (Nat.sub_le _ _)
  have htail : cutTail text keep' ≤ cutTail text keep := by
    rw [cutTail_eq hle, cutTail_eq (h.trans hle)]
    exact boundaryAfter_le_of_boundary (by omega) (boundary_boundaryAfter _ _)
  unfold keptEnd
  omega

/-- The two ends and what is between them are the text. -/
theorem SettledCut.length (h : SettledCut text cap keep omitted) :
    cutHead text keep + omitted + keptEnd text keep = text.length := by
  have hbetween := h.between
  have hhead := @cutHead_le_cutTail text keep
  have htail := @cutTail_le_length text keep
  unfold keptEnd
  omega

theorem length_cutText :
    (cutText text keep omitted).length =
      cutHead text keep + (omittedMarker omitted).length + keptEnd text keep := by
  rw [cutText, List.length_append, List.length_append, List.length_take, List.length_drop,
    min_eq_left cutHead_le_length, keptEnd]

/-- The passes end with a marker that names what it hides. -/
theorem settled_of_passes (attempts : Nat) {start : Nat} {cut : Bytes}
    (h : headTailPasses text cap attempts start = some cut) :
    ∃ keep omitted, SettledCut text cap keep omitted ∧ cut = cutText text keep omitted := by
  induction attempts generalizing start with
  | zero => cases h
  | succ attempts ih =>
    rw [headTailPasses] at h
    split_ifs at h with hroom hsettled
    · obtain rfl := Option.some.inj h
      rw [not_le] at hroom
      exact ⟨cap - (omittedMarker start).length, start,
        ⟨Nat.sub_pos_of_lt hroom, Nat.sub_add_cancel hroom.le, hsettled⟩, rfl⟩
    · exact ih h

/-- Ends that fill what is to be kept are halves of it. -/
theorem evenCut_of_filled (hpos : 0 < keep) (hle : keep ≤ text.length)
    (hfilled : cutHead text keep + keptEnd text keep = keep) : EvenCut text keep := by
  have hhead := @cutHead_le text keep
  have htail := keptEnd_le hle
  refine ⟨?_, ?_, ?_⟩ <;> omega

/-- Halves are kept again. -/
theorem EvenCut.again (h : EvenCut text keep) (hle : keep ≤ text.length) :
    cutHead text (cutHead text keep + keptEnd text keep) = cutHead text keep ∧
      keptEnd text (cutHead text keep + keptEnd text keep) = keptEnd text keep := by
  obtain ⟨-, hlow, hhigh⟩ := h
  have htailLe := @cutTail_le_length text keep
  have hends : cutHead text keep ≤ cutTail text keep := cutHead_le_cutTail
  have hend : keptEnd text keep = text.length - cutTail text keep := rfl
  have hhalf : (cutHead text keep + keptEnd text keep) / 2 = cutHead text keep := by omega
  have hother : cutHead text keep + keptEnd text keep - (cutHead text keep + keptEnd text keep) / 2 =
      keptEnd text keep := by omega
  have hfits : cutHead text keep + keptEnd text keep ≤ text.length := by omega
  constructor
  · rw [cutHead.eq_def text (cutHead text keep + keptEnd text keep), hhalf, utf8BoundaryBefore,
      min_eq_left cutHead_le_length]
    rcases boundary_stepBack text (min (keep / 2) text.length) with hzero | hboundary
    · have hhead : cutHead text keep = 0 := hzero
      rw [hhead]
      rfl
    · exact stepBack_of_boundary hboundary
  · have hat : text.length - keptEnd text keep = cutTail text keep := by omega
    have hboundary : Boundary text (cutTail text keep) := by
      rw [cutTail_eq hle]
      exact boundary_boundaryAfter _ _
    rw [keptEnd.eq_def text (cutHead text keep + keptEnd text keep), cutTail_eq hfits, hother, hat,
      boundaryAfter_of_boundary htailLe hboundary]
    rfl

end Ends

/-! ### Cutting twice -/

/-- A cut that comes out the same under its own length: the text fits, there
are only dots, there is no room for a marker either time, or both ends are half
of what is kept. -/
inductive CutLasts (text : Bytes) (cap : Nat) : Prop
  | whole : text.length ≤ cap → CutLasts text cap
  | dots : cap ≤ 3 → CutLasts text cap
  | start : headTailPasses text cap 3 (text.length - cap) = none →
      headTailPasses text ((utf8Prefix text (cap - 3)).length + 3) 3
        (text.length - ((utf8Prefix text (cap - 3)).length + 3)) = none → CutLasts text cap
  | ends {keep omitted : Nat} : SettledCut text cap keep omitted →
      headTailPasses text cap 3 (text.length - cap) = some (cutText text keep omitted) →
      EvenCut text keep → CutLasts text cap

section Twice

variable {text : Bytes} {cap keep omitted : Nat}

theorem headTail_of_some (hlong : cap < text.length) (hcap : 3 < cap) {cut : Bytes}
    (h : headTailPasses text cap 3 (text.length - cap) = some cut) : headTail text cap = cut := by
  rw [headTail, if_neg (not_le.mpr hlong), if_neg (not_le.mpr hcap), h, Option.getD_some]

theorem headTail_of_none (hlong : cap < text.length) (hcap : 3 < cap)
    (h : headTailPasses text cap 3 (text.length - cap) = none) :
    headTail text cap = utf8Prefix text (cap - 3) ++ lit "..." := by
  rw [headTail, if_neg (not_le.mpr hlong), if_neg (not_le.mpr hcap), h, Option.getD_none]

/-- Under the length of an even cut the first pass finds what is hidden, and
the second writes it. -/
theorem passes_again (h : SettledCut text cap keep omitted) (hlong : cap < text.length)
    (heven : EvenCut text keep) (hshort : (cutText text keep omitted).length < cap) :
    headTailPasses text (cutText text keep omitted).length 3
      (text.length - (cutText text keep omitted).length) = some (cutText text keep omitted) := by
  have hlength := @length_cutText text keep omitted
  have hall := h.length
  have hroom := h.room
  have hpos := heven.1
  have hmarker := length_omittedMarker_pos omitted
  obtain ⟨hhead, hend⟩ := heven.again (by omega)
  generalize hn : (cutText text keep omitted).length = n at *
  have hmono : (omittedMarker (text.length - n)).length ≤ (omittedMarker omitted).length :=
    length_omittedMarker_mono (by omega)
  have hdigit : (omittedMarker omitted).length ≤ (omittedMarker (text.length - n)).length + 1 :=
    length_omittedMarker_sub (by omega)
  -- What the first pass keeps lies between the two cuts, so its ends are theirs.
  have hfirst : cutHead text (n - (omittedMarker (text.length - n)).length) = cutHead text keep ∧
      keptEnd text (n - (omittedMarker (text.length - n)).length) = keptEnd text keep := by
    have hlow : cutHead text keep + keptEnd text keep ≤
        n - (omittedMarker (text.length - n)).length := by omega
    have hhigh : n - (omittedMarker (text.length - n)).length ≤ keep := by omega
    refine ⟨le_antisymm (cutHead_mono hhigh) ?_, le_antisymm (keptEnd_mono hhigh (by omega)) ?_⟩
    · rw [← hhead]
      exact cutHead_mono hlow
    · rw [← hend]
      exact keptEnd_mono hlow (by omega)
  have htail : ∀ keep', keptEnd text keep' = keptEnd text keep → cutTail text keep' =
      cutTail text keep := by
    intro keep' hsame
    have hle := @cutTail_le_length text keep
    have hle' := @cutTail_le_length text keep'
    unfold keptEnd at hsame
    omega
  have hsecond : n - (omittedMarker omitted).length = cutHead text keep + keptEnd text keep := by
    omega
  rw [headTailPasses, if_neg (by omega), hfirst.1, htail _ hfirst.2, h.between, if_neg (by omega),
    headTailPasses, if_neg (by omega), hsecond, hhead, htail _ hend, h.between, if_pos rfl]
  rfl

/-- **A lasting cut** comes out the same under its own length. -/
theorem headTail_twice (h : CutLasts text cap) :
    headTail text (headTail text cap).length = headTail text cap := by
  by_cases hfits : text.length ≤ cap
  · rw [headTail_of_le hfits, headTail_of_le le_rfl]
  rw [not_le] at hfits
  by_cases hdots : cap ≤ 3
  · have hcut : headTail text cap = List.replicate cap (ch '.') := by
      rw [headTail, if_neg (not_le.mpr hfits), if_pos hdots]
    rw [hcut, List.length_replicate, hcut]
  rw [not_le] at hdots
  cases h with
  | whole h => exact absurd h (not_le.mpr hfits)
  | dots h => exact absurd h (not_le.mpr hdots)
  | start hnone hagain =>
    have hcut := headTail_of_none hfits hdots hnone
    have hdotsLength : (lit "...").length = 3 := by decide
    have hlength : (headTail text cap).length = (utf8Prefix text (cap - 3)).length + 3 := by
      rw [hcut, List.length_append, hdotsLength]
    have hle := length_utf8Prefix_le text (cap - 3)
    by_cases hnil : utf8Prefix text (cap - 3) = []
    · rw [hnil, List.length_nil] at hlength
      rw [hlength, hcut, hnil, headTail, if_neg (by omega), if_pos (by omega)]
      decide
    · have hpos := List.length_pos_iff.mpr hnil
      rw [hlength, headTail_of_none (by omega) (by omega) hagain, Nat.add_sub_cancel,
        utf8Prefix_length, hcut]
  | ends hsettled hsome heven =>
    have hcut := headTail_of_some hfits hdots hsome
    have hle := length_headTail_le text cap
    -- A cut that fills its room is made under the same cap again.
    rcases hle.lt_or_eq with hshort | hfull
    · rw [hcut] at hshort ⊢
      refine headTail_of_some (hshort.trans hfits) ?_ (passes_again hsettled hfits heven hshort)
      rw [length_cutText, length_omittedMarker]
      omega
    · rw [hfull]

/-- A text without an omission marker. -/
def Unmarked (text : Bytes) : Prop := ∀ n, ¬omittedMarker n <:+: text

theorem getLast_omittedMarker (n : Nat) : (omittedMarker n).getLast? = some 0x0a := by
  have hclose : lit " bytes omitted] ...\n" = lit " bytes omitted] ..." ++ [0x0a] := by decide
  rw [omittedMarker, hclose, ← List.append_assoc, List.getLast?_concat]

/-- Dots behind the beginning of a text make up no marker. -/
theorem Unmarked.dots (h : Unmarked text) {shown : Bytes} (hshown : shown <+: text) :
    shown ++ lit "..." ≠ cutText text keep omitted := by
  intro heq
  rw [cutText] at heq
  rcases List.append_eq_append_iff.mp heq with ⟨front, hfront, hdots⟩ | ⟨front, hfront, -⟩
  · -- The marker would end in one of the dots.
    rcases List.eq_nil_or_concat' front with rfl | ⟨front, c, rfl⟩
    · rw [List.append_nil] at hfront
      exact h omitted (List.IsInfix.trans ⟨_, [], by rw [List.append_nil, hfront]⟩ hshown.isInfix)
    · have hlast := congrArg List.getLast? hfront
      rw [List.getLast?_append, getLast_omittedMarker, ← List.append_assoc,
        List.getLast?_concat] at hlast
      obtain rfl : (0x0a : UInt8) = c := Option.some.inj hlast
      have hmem : (0x0a : UInt8) ∈ lit "..." := by
        rw [hdots]
        simp
      revert hmem
      decide
  · exact h omitted (List.IsInfix.trans ⟨_, front, hfront.symm⟩ hshown.isInfix)

/-- A cut that fills its cap is even. -/
theorem SettledCut.even_of_filled (h : SettledCut text cap keep omitted) (hlong : cap < text.length)
    (hfilled : (cutText text keep omitted).length = cap) : EvenCut text keep := by
  have hroom := h.room
  rw [length_cutText] at hfilled
  exact evenCut_of_filled h.pos (by omega) (by omega)

/-- A marker begins with a newline and a dot. -/
theorem getElem?_omittedMarker (front rest : Bytes) (n : Nat) :
    (front ++ (omittedMarker n ++ rest))[front.length]? = some 0x0a ∧
      (front ++ (omittedMarker n ++ rest))[front.length + 1]? = some 0x2e := by
  have hopen : lit "\n... [" = 0x0a :: 0x2e :: lit ".. [" := by decide
  rw [List.getElem?_append_right le_rfl, List.getElem?_append_right (Nat.le_add_right _ 1), Nat.sub_self,
    Nat.add_sub_cancel_left, omittedMarker, hopen]
  exact ⟨rfl, rfl⟩

/-- The same text is not cut to its own length with one byte less and one digit
more. -/
theorem cutText_ne_of_digit {keep' omitted' : Nat}
    (hdigit : (omittedMarker omitted').length = (omittedMarker omitted).length + 1)
    (hends : cutHead text keep = cutHead text keep' + 1 ∨ cutHead text keep = cutHead text keep') :
    cutText text keep' omitted' ≠ cutText text keep omitted := by
  intro heq
  unfold cutText at heq
  rw [List.append_assoc, List.append_assoc] at heq
  rcases hends with hmore | hsame
  · -- The second byte of one marker stands where the other begins.
    have hlength : (text.take (cutHead text keep)).length =
        (text.take (cutHead text keep')).length + 1 := by
      rw [List.length_take, List.length_take, min_eq_left cutHead_le_length,
        min_eq_left cutHead_le_length, hmore]
    have hfirst := (getElem?_omittedMarker (text.take (cutHead text keep))
      (text.drop (cutTail text keep)) omitted).1
    rw [← heq, hlength, (getElem?_omittedMarker _ _ _).2] at hfirst
    revert hfirst
    decide
  · -- Where one number ends the other has a digit.
    rw [hsame] at heq
    have hmarkers := List.append_cancel_left heq
    have hclose : lit " bytes omitted] ...\n" = 0x20 :: lit "bytes omitted] ...\n" := by decide
    unfold omittedMarker at hmarkers hdigit
    rw [List.append_assoc, List.append_assoc, List.append_assoc, List.append_assoc] at hmarkers
    have hnumbers := List.append_cancel_left hmarkers
    simp only [List.length_append] at hdigit
    have hlt : (decimal omitted).length < (decimal omitted').length := by omega
    have hat := congrArg (·[(decimal omitted).length]?) hnumbers
    rw [List.getElem?_append_left hlt, List.getElem?_append_right le_rfl, Nat.sub_self, hclose,
      List.getElem?_eq_getElem hlt] at hat
    have hspace : (decimal omitted')[(decimal omitted).length] = 0x20 := Option.some.inj hat
    have hdigit := (digit_of_mem_decimal (List.getElem_mem hlt)).1
    rw [hspace] at hdigit
    revert hdigit
    decide

/-- A cut that comes out the same under its own length is even. -/
theorem SettledCut.even_of_twice {keep' omitted' : Nat} (h : SettledCut text cap keep omitted)
    (hlong : cap < text.length)
    (h' : SettledCut text (cutText text keep omitted).length keep' omitted')
    (hshort : (cutText text keep omitted).length < cap)
    (hsame : cutText text keep' omitted' = cutText text keep omitted) : EvenCut text keep := by
  have hlength := @length_cutText text keep omitted
  have hlength' := @length_cutText text keep' omitted'
  rw [hsame] at hlength'
  have hall := h.length
  have hall' := h'.length
  have hroom := h.room
  have hroom' := h'.room
  have hpos' := h'.pos
  have heven := h'.even_of_filled (by omega) (congrArg List.length hsame)
  rcases lt_trichotomy keep' (cutHead text keep + keptEnd text keep) with hless | heq | hmore
  · -- One byte less and a digit more.
    have hmono : (omittedMarker omitted).length ≤ (omittedMarker omitted').length :=
      length_omittedMarker_mono (by omega)
    have hdigit : (omittedMarker omitted').length ≤ (omittedMarker omitted).length + 1 :=
      length_omittedMarker_sub (by omega)
    have hhead := @cutHead_mono text keep' keep (by omega)
    have hend := @keptEnd_mono text keep' keep (by omega) (by omega)
    exact absurd hsame (cutText_ne_of_digit (by omega) (by omega))
  · -- The same ends, which fill what is kept.
    have hhead := @cutHead_mono text keep' keep (by omega)
    have hend := @keptEnd_mono text keep' keep (by omega) (by omega)
    obtain ⟨hpos, hlow, hhigh⟩ := heven
    refine ⟨?_, ?_, ?_⟩ <;> omega
  · -- One byte more would have been kept the first time.
    have hmono : (omittedMarker omitted').length ≤ (omittedMarker omitted).length :=
      length_omittedMarker_mono (by omega)
    have hdigit : (omittedMarker omitted).length ≤ (omittedMarker omitted').length + 1 :=
      length_omittedMarker_sub (by omega)
    have hhead := @cutHead_mono text keep' keep (by omega)
    have hend := @keptEnd_mono text keep' keep (by omega) (by omega)
    omega

/-- **Only a lasting cut** of a text without a marker comes out the same. -/
theorem cutLasts_of_twice (hplain : Unmarked text)
    (h : headTail text (headTail text cap).length = headTail text cap) : CutLasts text cap := by
  by_cases hfits : text.length ≤ cap
  · exact .whole hfits
  by_cases hdots : cap ≤ 3
  · exact .dots hdots
  rw [not_le] at hfits hdots
  have hle := length_headTail_le text cap
  cases hcut : headTailPasses text cap 3 (text.length - cap) with
  | none =>
    have hhead := headTail_of_none hfits hdots hcut
    have hlength : (headTail text cap).length = (utf8Prefix text (cap - 3)).length + 3 := by
      rw [hhead, List.length_append]
      rfl
    refine .start hcut ?_
    rw [← hlength]
    cases hagain : headTailPasses text (headTail text cap).length 3
        (text.length - (headTail text cap).length) with
    | none => rfl
    | some cut =>
      -- A marker the second time would stand in the text itself.
      obtain ⟨keep, omitted, hsettled, rfl⟩ := settled_of_passes 3 hagain
      have hroom := hsettled.room
      have hmarker := length_omittedMarker omitted
      rw [headTail_of_some (by omega) (by omega) hagain, hhead] at h
      exact absurd h.symm (hplain.dots (utf8Prefix_isPrefix _ _))
  | some cut =>
    obtain ⟨keep, omitted, hsettled, rfl⟩ := settled_of_passes 3 hcut
    have hhead := headTail_of_some hfits hdots hcut
    refine .ends hsettled hcut ?_
    rw [hhead] at h hle
    rcases hle.lt_or_eq with hshort | hfull
    · have hmarker := length_omittedMarker omitted
      have hlength := @length_cutText text keep omitted
      cases hagain : headTailPasses text (cutText text keep omitted).length 3
          (text.length - (cutText text keep omitted).length) with
      | none =>
        -- So would the one of the first time.
        rw [headTail_of_none (by omega) (by omega) hagain] at h
        exact absurd h (hplain.dots (utf8Prefix_isPrefix _ _))
      | some cut =>
        obtain ⟨keep', omitted', hsettled', rfl⟩ := settled_of_passes 3 hagain
        rw [headTail_of_some (by omega) (by omega) hagain] at h
        exact hsettled.even_of_twice hfits hsettled' hshort h
    · exact hsettled.even_of_filled hfits hfull

end Twice

end UAgent
