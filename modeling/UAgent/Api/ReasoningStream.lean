/-
UAgent/Api/ReasoningStream.lean

Reasoning as it streams in (`StreamCtx::OutputReasoning`,
src/include/api/stream.h): fragments of named parts, each appended to its part
or taking its place, kept as one text with a blank line between the parts, and
passed on as events.

Offsets are `size_t`s: one that a shift takes below zero wraps around, and
`replace` throws at an offset behind the end of the text.

Main result: `reasoning_laid_out`.  Nothing is thrown, the text is the parts
joined, every part has its span and a reader of the events holds the text, as
long as no part comes up while the newest one is empty; then its offset is the
end of the text, and it is shifted as if it stood behind the new part.
-/
import UAgent.Base.Bytes
import UAgent.Base.Json
import UAgent.Base.Layout
import UAgent.Base.Run

namespace UAgent

open Bytes

/-! ### The stream -/

/-- `ReasoningDelta`. -/
structure ReasoningDelta where
  part : Bytes
  kind : Bytes := []
  text : Bytes := []
  complete : Bool := false
  snapshot : Bool := false
deriving DecidableEq

/-- `ReasoningSpan`. -/
structure ReasoningSpan where
  offset : Nat := 0
  bytes : Nat := 0
  complete : Bool := false
deriving DecidableEq

/-- The reasoning of a response, and where its parts lie in it. -/
structure ReasoningStream where
  reasoning : Bytes := []
  parts : List (Bytes × ReasoningSpan) := []
deriving DecidableEq

/-- What a reasoning event says. -/
structure ReasoningEvent where
  text : Bytes
  appendText : Option Bytes
  corrected : Bool
  offset : Nat
  reset : Bool
  part : Bytes
  reasoningKind : Bytes
  reasoningText : Bytes
  reasoningReset : Bool
  complete : Bool
  /-- `event.text` -/
  patch : Bytes
deriving DecidableEq

/-- The blank line between parts. -/
def kPartSeparator : Bytes := lit "\n\n"

def kStatusLineBytes : Nat := 192

namespace ReasoningStream

/-- Where a patch goes. -/
def patchOffset (span : ReasoningSpan) (erase : Nat) : Nat :=
  if erase = 0 then (span.offset + span.bytes) % 2 ^ 64 else span.offset

/-- A part behind the patch moves by what it grows the text. -/
def shifted (offset erase grown : Nat) (other : ReasoningSpan) : ReasoningSpan :=
  if offset ≤ other.offset then
    { other with offset := (other.offset + (2 ^ 64 - erase) + grown) % 2 ^ 64 }
  else other

/-- The span of the patched part. -/
def patchedSpan (fragment : ReasoningDelta) (span : ReasoningSpan) (separator addition : Bytes)
    (erase : Nat) : ReasoningSpan where
  offset := (span.offset + separator.length) % 2 ^ 64
  bytes := (span.bytes - erase + addition.length) % 2 ^ 64
  complete := fragment.complete

/-- Captions consume new text only; a short complete part is one line of them. -/
def completeLine (span : ReasoningSpan) : Bool := span.complete && span.bytes ≤ kStatusLineBytes

/-- The end of `OutputReasoning`: the text is patched, the other parts are
moved and an event is made. -/
def patched (s : ReasoningStream) (fragment : ReasoningDelta) (span : ReasoningSpan)
    (separator addition : Bytes) (erase : Nat) : ReasoningStream × ReasoningEvent :=
  let offset := patchOffset span erase
  let reset := offset ≠ s.reasoning.length || 0 < erase
  let patch := separator ++ addition
  let reasoning := s.reasoning.take offset ++ patch ++ s.reasoning.drop (offset + erase)
  let others := s.parts.map fun e =>
    if e.1 ≠ fragment.part then (e.1, shifted offset erase patch.length e.2) else e
  let span := patchedSpan fragment span separator addition erase
  ({ reasoning, parts := Assoc.insert fragment.part span others },
    { text := if reset then reasoning else patch
      appendText := if reset then some patch else none
      corrected := 0 < erase
      offset := if reset then 0 else offset
      reset
      part := fragment.part
      reasoningKind := fragment.kind
      reasoningText :=
        if completeLine span then (reasoning.drop span.offset).take span.bytes else addition
      reasoningReset := 0 < erase || completeLine span
      complete := fragment.complete
      patch })

/-- The patch, unless `replace` or `substr` is given an offset behind the end
of the text and throws. -/
def patch (s : ReasoningStream) (fragment : ReasoningDelta) (span : ReasoningSpan)
    (separator addition : Bytes) (erase : Nat) : Option (ReasoningStream × Option ReasoningEvent) :=
  let (stream, event) := s.patched fragment span separator addition erase
  let span' := patchedSpan fragment span separator addition erase
  if s.reasoning.length < patchOffset span erase then none
  else if completeLine span' && stream.reasoning.length < span'.offset then none
  else some (stream, some event)

/-- The text of a span. -/
def spanText (s : ReasoningStream) (span : ReasoningSpan) : Bytes :=
  (s.reasoning.drop span.offset).take span.bytes

/-- `OutputReasoning`; none where it throws, or reads a span that is not within
the text. -/
def outputReasoning (s : ReasoningStream) (fragment : ReasoningDelta) :
    Option (ReasoningStream × Option ReasoningEvent) :=
  match Assoc.lookup fragment.part s.parts with
  | none =>
    if fragment.text = [] then some (s, none)
    else
      s.patch fragment { offset := s.reasoning.length }
        (if s.reasoning = [] then [] else kPartSeparator) fragment.text 0
  | some span =>
    if span.complete && !fragment.complete then some (s, none)
    else if fragment.snapshot then
      if 0 < span.bytes && s.reasoning.length < span.offset + span.bytes then none
      else if fragment.text = s.spanText span ∧ span.complete = fragment.complete then some (s, none)
      else if s.spanText span <+: fragment.text then
        s.patch fragment span [] (fragment.text.drop span.bytes) 0
      else s.patch fragment span [] fragment.text span.bytes
    else if span.complete then some (s, none)
    else s.patch fragment span [] fragment.text 0

end ReasoningStream

/-! ### Parts and readers -/

/-- A part, as the fragments have made it. -/
structure ReasoningPart where
  name : Bytes
  text : Bytes
  complete : Bool
deriving DecidableEq

namespace ReasoningPart

/-- A part takes a fragment: a complete one only a complete snapshot. -/
def receive (p : ReasoningPart) (fragment : ReasoningDelta) : ReasoningPart :=
  if p.complete && !(fragment.complete && fragment.snapshot) then p
  else
    { p with
      text := if fragment.snapshot then fragment.text else p.text ++ fragment.text
      complete := fragment.complete }

end ReasoningPart

/-- The parts take a fragment; an unknown part comes last. -/
def receiveParts (parts : List ReasoningPart) (fragment : ReasoningDelta) : List ReasoningPart :=
  if fragment.part ∈ parts.map ReasoningPart.name then
    parts.map fun p => if p.name = fragment.part then p.receive fragment else p
  else if fragment.text = [] then parts
  else parts ++ [⟨fragment.part, fragment.text, fragment.complete⟩]

/-- A reader takes an event: the whole text, or text at an offset. -/
def readReasoning (held : Bytes) (event : ReasoningEvent) : Bytes :=
  if event.reset then event.text else held.take event.offset ++ event.text

/-- The stream, the parts its fragments have made and a reader of its events,
and whether a fragment was thrown at. -/
structure ReasoningRun where
  stream : ReasoningStream := {}
  parts : List ReasoningPart := []
  held : Bytes := []
  threw : Bool := false
deriving DecidableEq

namespace ReasoningRun

/-- One fragment. -/
def step (r : ReasoningRun) (fragment : ReasoningDelta) : ReasoningRun :=
  let parts := receiveParts r.parts fragment
  match r.stream.outputReasoning fragment with
  | some (stream, event) =>
    { r with stream, parts, held := event.elim r.held (readReasoning r.held) }
  | none => { r with parts, threw := true }

/-- No part comes up while the newest one is empty, and the text stays one a
`size_t` can measure. -/
def Orderly (r : ReasoningRun) (fragment : ReasoningDelta) : Prop :=
  (fragment.text ≠ [] → fragment.part ∉ r.parts.map ReasoningPart.name →
    ∀ p ∈ r.parts.getLast?, p.text ≠ []) ∧
  r.stream.reasoning.length + kPartSeparator.length + fragment.text.length < 2 ^ 64

instance (r : ReasoningRun) (fragment : ReasoningDelta) : Decidable (r.Orderly fragment) := by
  unfold Orderly
  infer_instance

/-- **What the stream is to be**: the parts in the order they came up, a blank
line between them, each in its span, the spans apart, and the same text held by
the reader; and nothing was thrown. -/
structure LaidOut (r : ReasoningRun) : Prop where
  text : r.stream.reasoning = kPartSeparator.intercalate (r.parts.map ReasoningPart.text)
  span : ∀ p ∈ r.parts, ∃ span, Assoc.lookup p.name r.stream.parts = some span ∧
    r.stream.spanText span = p.text
  apart : ∀ p ∈ r.parts, ∀ q ∈ r.parts, p.name ≠ q.name →
    ∀ a ∈ Assoc.lookup p.name r.stream.parts, ∀ b ∈ Assoc.lookup q.name r.stream.parts,
      a.offset + a.bytes ≤ b.offset ∨ b.offset + b.bytes ≤ a.offset
  held : r.held = r.stream.reasoning
  threw : r.threw = false

end ReasoningRun

/-! ### One patch -/

open Layout

namespace ReasoningStream

variable {s : ReasoningStream} {fragment : ReasoningDelta} {span : ReasoningSpan}
variable {separator addition : Bytes} {erase : Nat}

/-- A reader of the event holds the patched text. -/
theorem readReasoning_patched (s : ReasoningStream) (fragment : ReasoningDelta)
    (span : ReasoningSpan) (separator addition : Bytes) (erase : Nat) :
    readReasoning s.reasoning (s.patched fragment span separator addition erase).2 =
      (s.patched fragment span separator addition erase).1.reasoning := by
  rw [readReasoning]
  by_cases hreset : patchOffset span erase ≠ s.reasoning.length ∨ 0 < erase
  · have hreset' : (decide (patchOffset span erase ≠ s.reasoning.length) || decide (0 < erase)) =
        true := by simpa using hreset
    simp only [patched, hreset', if_true]
  · have hreset' : (decide (patchOffset span erase ≠ s.reasoning.length) || decide (0 < erase)) =
        false := by simpa using hreset
    rw [not_or, not_not, Nat.not_lt, Nat.le_zero] at hreset
    obtain ⟨hend, rfl⟩ := hreset
    simp [patched, hend]

theorem patched_reasoning :
    (s.patched fragment span separator addition erase).1.reasoning =
      s.reasoning.take (patchOffset span erase) ++ (separator ++ addition) ++
        s.reasoning.drop (patchOffset span erase + erase) := rfl

/-- The patched part has its new span, and the others are where they were or
moved. -/
theorem lookup_patched (name : Bytes) :
    Assoc.lookup name (s.patched fragment span separator addition erase).1.parts =
      if name = fragment.part then some (patchedSpan fragment span separator addition erase)
      else (Assoc.lookup name s.parts).map
        (shifted (patchOffset span erase) erase (separator ++ addition).length) := by
  rw [patched, Assoc.lookup_insert]
  split_ifs with hname
  · rfl
  · induction s.parts with
    | nil => rfl
    | cons e parts ih =>
      rw [List.map_cons]
      by_cases hpart : e.1 = fragment.part
      · have hne : e.1 ≠ name := fun heq => hname (heq.symm.trans hpart)
        rw [if_neg (not_not.mpr hpart), Assoc.lookup_cons, if_neg hne, Assoc.lookup_cons, if_neg hne]
        exact ih
      · rw [if_pos hpart, Assoc.lookup_cons, Assoc.lookup_cons]
        split_ifs
        · rfl
        · exact ih

/-! #### Without a wrap -/

theorem patchOffset_of_lt (h : span.offset + span.bytes < 2 ^ 64) :
    patchOffset span erase = if erase = 0 then span.offset + span.bytes else span.offset := by
  rw [patchOffset, Nat.mod_eq_of_lt h]

theorem shifted_of_lt {offset grown : Nat} {other : ReasoningSpan} (hle : offset ≤ other.offset)
    (herase : erase ≤ other.offset) (hother : other.offset < 2 ^ 64)
    (h : other.offset + grown - erase < 2 ^ 64) :
    shifted offset erase grown other = { other with offset := other.offset + grown - erase } := by
  rw [shifted, if_pos hle]
  congr 1
  omega

theorem patchedSpan_of_lt (hoffset : span.offset + separator.length < 2 ^ 64)
    (hbytes : span.bytes - erase + addition.length < 2 ^ 64) :
    patchedSpan fragment span separator addition erase =
      ⟨span.offset + separator.length, span.bytes - erase + addition.length, fragment.complete⟩ := by
  rw [patchedSpan, Nat.mod_eq_of_lt hoffset, Nat.mod_eq_of_lt hbytes]

/-- A patch within the text is made. -/
theorem patch_of_le (hoffset : patchOffset span erase ≤ s.reasoning.length)
    (hspan : (patchedSpan fragment span separator addition erase).offset ≤
      (s.patched fragment span separator addition erase).1.reasoning.length) :
    s.patch fragment span separator addition erase =
      some ((s.patched fragment span separator addition erase).1,
        some (s.patched fragment span separator addition erase).2) := by
  rw [patch]
  dsimp only
  rw [if_neg (not_lt.mpr hoffset), if_neg (by simp [hspan])]

/-! ### Parts in their places -/

/-- The text before some parts. -/
def before (parts : List ReasoningPart) : Bytes :=
  lead kPartSeparator (parts.map ReasoningPart.text)

/-- The text after some parts. -/
def behind (parts : List ReasoningPart) : Bytes :=
  trail kPartSeparator (parts.map ReasoningPart.text)

/-- A stream that holds some parts: joined, and each at its place. -/
structure Laid (s : ReasoningStream) (parts : List ReasoningPart) : Prop where
  text : s.reasoning = kPartSeparator.intercalate (parts.map ReasoningPart.text)
  keys : (parts.map ReasoningPart.name).Nodup
  span : ∀ (front : List ReasoningPart) (p : ReasoningPart) (back : List ReasoningPart),
    parts = front ++ p :: back → Assoc.lookup p.name s.parts =
      some ⟨(before front).length, p.text.length, p.complete⟩
  other : ∀ name, name ∉ parts.map ReasoningPart.name → Assoc.lookup name s.parts = none

theorem intercalate_parts (front : List ReasoningPart) (p : ReasoningPart)
    (back : List ReasoningPart) :
    kPartSeparator.intercalate ((front ++ p :: back).map ReasoningPart.text) =
      before front ++ p.text ++ behind back := by
  rw [List.map_append, List.map_cons, intercalate_split, before, behind]

theorem before_append_cons (front : List ReasoningPart) (p : ReasoningPart)
    (back : List ReasoningPart) :
    before (front ++ p :: back) = before front ++ (p.text ++ kPartSeparator ++ before back) := by
  rw [before, List.map_append, List.map_cons, lead_append, lead_cons]
  rfl

variable {front back : List ReasoningPart} {p : ReasoningPart} {text : Bytes}

/-- **A part is patched** at its end, or as a whole. -/
theorem Laid.patch_known (h : s.Laid (front ++ p :: back)) (hname : p.name = fragment.part)
    (hspan : span = ⟨(before front).length, p.text.length, p.complete⟩)
    (htext : erase = 0 ∧ text = p.text ++ addition ∨ erase = p.text.length ∧ text = addition)
    (hroom : s.reasoning.length + addition.length < 2 ^ 64) :
    ∃ s' event, s.patch fragment span [] addition erase = some (s', event) ∧
      s'.Laid (front ++ { p with text := text, complete := fragment.complete } :: back) := by
  have hnames : (front ++ ({ p with text := text, complete := fragment.complete } : ReasoningPart)
      :: back).map ReasoningPart.name = (front ++ p :: back).map ReasoningPart.name := by
    simp
  have hreasoning := h.text
  rw [intercalate_parts] at hreasoning
  have hsize : s.reasoning.length =
      (before front).length + p.text.length + (behind back).length := by
    rw [hreasoning, List.length_append, List.length_append]
  have hspanSize : span.offset + span.bytes = (before front).length + p.text.length := by
    rw [hspan]
  have hoffset := @patchOffset_of_lt span erase (by omega)
  -- The patch ends where the part ends, and completes the part.
  obtain ⟨hend, hlength, hleft⟩ : patchOffset span erase + erase =
        (before front).length + p.text.length ∧
      patchOffset span erase + addition.length = (before front).length + text.length ∧
      s.reasoning.take (patchOffset span erase) ++ addition = before front ++ text := by
    rw [hoffset, hspan, hreasoning, List.append_assoc]
    rcases htext with ⟨rfl, rfl⟩ | ⟨rfl, rfl⟩
    · refine ⟨rfl, by simp [Nat.add_assoc], ?_⟩
      simp [← List.append_assoc]
    · by_cases hnil : p.text.length = 0
      · simp [hnil]
      · rw [if_neg hnil]
        exact ⟨rfl, rfl, by simp⟩
  have hwithin : erase ≤ p.text.length := by
    rcases htext with ⟨rfl, -⟩ | ⟨rfl, -⟩
    · exact Nat.zero_le _
    · exact le_rfl
  have hnext : patchedSpan fragment span [] addition erase =
      ⟨(before front).length, p.text.length - erase + addition.length, fragment.complete⟩ := by
    rw [patchedSpan_of_lt (by rw [hspan]; simp only [List.length_nil]; omega)
      (by rw [hspan]; dsimp only; omega), hspan]
    rfl
  have hpatched : (s.patched fragment span [] addition erase).1.reasoning =
      before front ++ text ++ behind back := by
    rw [patched_reasoning, hend, List.nil_append, hleft, hreasoning, ← List.length_append,
      List.drop_left]
  refine ⟨_, _, patch_of_le (by omega) ?_, ?_⟩
  · rw [hnext, hpatched, List.length_append, List.length_append]
    dsimp only
    omega
  have hnodup := h.keys
  rw [List.map_append, List.map_cons, List.perm_middle.nodup_iff, List.nodup_cons, List.mem_append,
    not_or] at hnodup
  refine ⟨?_, hnames ▸ h.keys, ?_, ?_⟩
  · rw [hpatched, intercalate_parts]
  · intro front' q back' hsplit
    rw [lookup_patched]
    rcases List.append_eq_append_iff.mp hsplit with ⟨between, rfl, hrest⟩ | ⟨between, rfl, hrest⟩
    · rcases between with - | ⟨first, between⟩
      · obtain ⟨rfl, rfl⟩ := List.cons.inj hrest
        rw [if_pos hname, hnext, List.append_nil]
        simp only [Option.some.injEq, ReasoningSpan.mk.injEq, true_and, and_true]
        omega
      · -- A part behind it moves by what the text grew.
        obtain ⟨rfl, rfl⟩ := List.cons.inj hrest
        have hne : q.name ≠ fragment.part := by
          intro heq
          refine hnodup.1.2 ?_
          rw [hname, ← heq]
          simp
        have hplace := h.span (front ++ p :: between) q back' (by simp)
        have hbehind : (before (front ++ p :: between)).length ≤ s.reasoning.length := by
          have htext := h.text
          rw [show front ++ p :: between.append (q :: back') = front ++ p :: between ++ q :: back'
            by simp, intercalate_parts] at htext
          rw [htext]
          simp only [List.length_append]
          omega
        rw [before_append_cons] at hbehind
        simp only [List.length_append] at hbehind
        rw [if_neg hne, hplace, Option.map_some, before_append_cons, before_append_cons,
          shifted_of_lt]
        · simp only [Option.some.injEq, ReasoningSpan.mk.injEq, List.length_append, List.nil_append,
            and_true]
          omega
        all_goals
          simp only [List.length_append, List.nil_append]
          omega
    · rcases between with - | ⟨first, between⟩
      · obtain ⟨rfl, rfl⟩ := List.cons.inj hrest
        rw [if_pos hname, hnext, List.append_nil]
        simp only [Option.some.injEq, ReasoningSpan.mk.injEq, true_and, and_true]
        omega
      · -- A part in front of it stays.
        obtain ⟨rfl, rfl⟩ := List.cons.inj hrest
        have hne : q.name ≠ fragment.part := by
          intro heq
          refine hnodup.1.1 ?_
          rw [hname, ← heq]
          simp
        have hplace := h.span front' q (between ++ p :: back) (by simp)
        have hlonger : (before front').length < (before (front' ++ q :: between)).length := by
          have hsep : kPartSeparator.length = 2 := rfl
          rw [before_append_cons]
          simp only [List.length_append]
          omega
        rw [if_neg hne, hplace, Option.map_some, shifted, if_neg]
        show ¬_ ≤ (before front').length
        omega
  · intro name hother
    rw [hnames] at hother
    have hne : name ≠ fragment.part := by
      rintro rfl
      exact hother (by rw [← hname]; simp)
    rw [lookup_patched, if_neg hne, h.other name hother]
    rfl

/-- **A part comes up** behind one that is not empty. -/
theorem Laid.patch_new {parts : List ReasoningPart} (h : s.Laid parts)
    (hnew : fragment.part ∉ parts.map ReasoningPart.name)
    (hlast : ∀ p ∈ parts.getLast?, p.text ≠ [])
    (hroom : s.reasoning.length + kPartSeparator.length + fragment.text.length < 2 ^ 64) :
    ∃ s' event, s.patch fragment { offset := s.reasoning.length }
        (if s.reasoning = [] then [] else kPartSeparator) fragment.text 0 = some (s', event) ∧
      s'.Laid (parts ++ [⟨fragment.part, fragment.text, fragment.complete⟩]) := by
  have hoffset : patchOffset { offset := s.reasoning.length } 0 = s.reasoning.length :=
    (patchOffset_of_lt (by dsimp only; omega)).trans (if_pos rfl)
  have hseparator : (if s.reasoning = [] then [] else kPartSeparator).length ≤
      kPartSeparator.length := by
    split_ifs
    · exact Nat.zero_le _
    · exact le_rfl
  have hnext : patchedSpan fragment { offset := s.reasoning.length }
      (if s.reasoning = [] then [] else kPartSeparator) fragment.text 0 =
        ⟨s.reasoning.length + (if s.reasoning = [] then [] else kPartSeparator).length,
          fragment.text.length, fragment.complete⟩ := by
    rw [patchedSpan_of_lt (by dsimp only; omega) (by dsimp only; omega)]
    simp
  have hlater : ∀ (front : List ReasoningPart) (p : ReasoningPart) (back : List ReasoningPart),
      parts = front ++ p :: back → (before front).length < s.reasoning.length := by
    rintro front p back rfl
    rw [h.text, intercalate_parts]
    simp only [List.length_append]
    rcases back with - | ⟨next, back⟩
    · have htext := List.length_pos_iff.mpr (hlast p (by simp))
      omega
    · have hsep : kPartSeparator.length = 2 := rfl
      rw [behind, List.map_cons, trail_cons]
      simp only [List.length_append]
      omega
  -- What stands before the new part is the text and the separator.
  have hbefore : s.reasoning ++ (if s.reasoning = [] then [] else kPartSeparator) = before parts := by
    rcases List.eq_nil_or_concat' parts with rfl | ⟨front, p, rfl⟩
    · have hempty : s.reasoning = [] := h.text
      rw [hempty]
      rfl
    · have hlonger := hlater front p [] rfl
      have hne : s.reasoning ≠ [] := by
        rintro hempty
        rw [hempty] at hlonger
        exact absurd hlonger (Nat.not_lt_zero _)
      rw [if_neg hne, h.text, before, lead_eq (by simp)]
  have hpatched : (s.patched fragment { offset := s.reasoning.length }
      (if s.reasoning = [] then [] else kPartSeparator) fragment.text 0).1.reasoning =
        before parts ++ fragment.text := by
    rw [patched_reasoning, hoffset, List.take_length, Nat.add_zero, List.drop_length,
      List.append_nil, ← List.append_assoc, hbefore]
  refine ⟨_, _, patch_of_le hoffset.le ?_, ?_, ?_, ?_, ?_⟩
  · rw [hnext, hpatched, ← hbefore, List.length_append, List.length_append]
    exact Nat.le_add_right _ _
  · rw [hpatched, intercalate_parts]
    simp [behind]
  · rw [List.map_append, List.nodup_append]
    refine ⟨h.keys, List.pairwise_singleton _ _, fun name hname name' hname' => ?_⟩
    obtain rfl := List.mem_singleton.mp hname'
    rintro rfl
    exact hnew hname
  · intro front p back hsplit
    have hplace : p = ⟨fragment.part, fragment.text, fragment.complete⟩ → front = parts →
        Assoc.lookup p.name (s.patched fragment { offset := s.reasoning.length }
          (if s.reasoning = [] then [] else kPartSeparator) fragment.text 0).1.parts =
            some ⟨(before front).length, p.text.length, p.complete⟩ := by
      rintro rfl rfl
      rw [lookup_patched, if_pos rfl, hnext, ← hbefore, List.length_append]
    rcases List.append_eq_append_iff.mp hsplit with ⟨between, rfl, hrest⟩ | ⟨between, rfl, hrest⟩
    · rcases between with - | ⟨first, between⟩
      · obtain ⟨rfl, -⟩ := List.cons.inj hrest
        exact hplace rfl (List.append_nil _)
      · exact absurd (congrArg List.length hrest) (by simp)
    · rcases between with - | ⟨first, between⟩
      · obtain ⟨rfl, -⟩ := List.cons.inj hrest
        exact hplace rfl (List.append_nil _).symm
      · obtain ⟨rfl, rfl⟩ := List.cons.inj hrest
        have hne : p.name ≠ fragment.part := by
          intro heq
          refine hnew ?_
          rw [← heq]
          simp
        have hshort := hlater front p between rfl
        rw [lookup_patched, if_neg hne, h.span front p between rfl, hoffset, Option.map_some, shifted,
          if_neg (not_le.mpr hshort)]
  · intro name hother
    rw [List.map_append, List.mem_append, not_or] at hother
    have hne : name ≠ fragment.part := by simpa using hother.2
    rw [lookup_patched, if_neg hne, h.other name hother.1]
    rfl

theorem Laid.spanText_eq (h : s.Laid (front ++ p :: back)) :
    s.spanText ⟨(before front).length, p.text.length, p.complete⟩ = p.text := by
  rw [spanText, h.text, intercalate_parts, List.append_assoc, List.drop_left, List.take_left]

/-- Only the part of that name takes a fragment. -/
theorem receiveParts_split (hkeys : ((front ++ p :: back).map ReasoningPart.name).Nodup)
    (hname : p.name = fragment.part) :
    receiveParts (front ++ p :: back) fragment = front ++ p.receive fragment :: back := by
  rw [List.map_append, List.map_cons, List.perm_middle.nodup_iff, List.nodup_cons, List.mem_append,
    not_or] at hkeys
  have hsame : ∀ parts : List ReasoningPart, p.name ∉ parts.map ReasoningPart.name →
      (parts.map fun q => if q.name = fragment.part then q.receive fragment else q) = parts := by
    intro parts hnot
    conv_rhs => rw [← List.map_id parts]
    refine List.map_congr_left fun q hq => if_neg fun heq => hnot ?_
    rw [hname, ← heq]
    exact List.mem_map_of_mem hq
  rw [receiveParts, if_pos (by rw [← hname]; simp), List.map_append, List.map_cons, if_pos hname,
    hsame front hkeys.1.1, hsame back hkeys.1.2]

/-- **One fragment**: nothing is thrown, and the stream holds the parts the
fragment makes. -/
theorem Laid.output {parts : List ReasoningPart} (h : s.Laid parts)
    (hok : fragment.text ≠ [] → fragment.part ∉ parts.map ReasoningPart.name →
      ∀ p ∈ parts.getLast?, p.text ≠ [])
    (hroom : s.reasoning.length + kPartSeparator.length + fragment.text.length < 2 ^ 64) :
    ∃ s' event, s.outputReasoning fragment = some (s', event) ∧
      s'.Laid (receiveParts parts fragment) := by
  by_cases hknown : fragment.part ∈ parts.map ReasoningPart.name
  · obtain ⟨p, hp, hname⟩ := List.mem_map.mp hknown
    obtain ⟨front, back, rfl⟩ := List.append_of_mem hp
    have hspan := h.span front p back rfl
    have htext := h.spanText_eq
    have hwithin : (before front).length + p.text.length ≤ s.reasoning.length := by
      rw [h.text, intercalate_parts, List.length_append, List.length_append]
      omega
    rw [hname] at hspan
    rw [receiveParts_split h.keys hname, outputReasoning, hspan]
    dsimp only
    rw [htext]
    have hkeeps : (p.complete && !(fragment.complete && fragment.snapshot)) = true →
        p.receive fragment = p := fun hkeeps => if_pos hkeeps
    have htakes : (p.complete && !(fragment.complete && fragment.snapshot)) = false →
        p.receive fragment = { p with
          text := if fragment.snapshot then fragment.text else p.text ++ fragment.text
          complete := fragment.complete } := fun htakes =>
          if_neg (Bool.eq_false_iff.mp htakes)
    -- A complete part takes a complete snapshot only.
    by_cases hcomplete : p.complete = true ∧ fragment.complete = false
    · rw [if_pos (by simp [hcomplete]), hkeeps (by simp [hcomplete])]
      exact ⟨s, none, rfl, h⟩
    have hlate : (p.complete && !fragment.complete) = false := by simpa using hcomplete
    rw [if_neg (by simp [hlate])]
    by_cases hsnapshot : fragment.snapshot = true
    · rw [if_pos hsnapshot, htakes (by simpa [hsnapshot] using hlate), if_pos hsnapshot,
        if_neg (by simp [hwithin])]
      by_cases hsame : fragment.text = p.text ∧ p.complete = fragment.complete
      · rw [if_pos hsame, hsame.1, ← hsame.2]
        exact ⟨s, none, rfl, h⟩
      rw [if_neg hsame]
      by_cases hlonger : p.text <+: fragment.text
      · rw [if_pos hlonger]
        obtain ⟨rest, hrest⟩ := hlonger
        refine h.patch_known hname rfl (.inl ⟨rfl, ?_⟩) ?_
        · rw [← hrest, List.drop_left]
        · rw [List.length_drop]
          omega
      · rw [if_neg hlonger]
        exact h.patch_known hname rfl (.inr ⟨rfl, rfl⟩) (by omega)
    · rw [if_neg hsnapshot]
      by_cases hdone : p.complete = true
      · rw [if_pos hdone, hkeeps (by simp [hdone, hsnapshot])]
        exact ⟨s, none, rfl, h⟩
      · rw [if_neg hdone, htakes (by simp [hdone]), if_neg hsnapshot]
        exact h.patch_known hname rfl (.inl ⟨rfl, rfl⟩) (by omega)
  · rw [outputReasoning, h.other _ hknown, receiveParts, if_neg hknown]
    dsimp only
    by_cases hnil : fragment.text = []
    · rw [if_pos hnil, if_pos hnil]
      exact ⟨s, none, rfl, h⟩
    · rw [if_neg hnil, if_neg hnil]
      exact h.patch_new hknown (hok hnil hknown) hroom

theorem readReasoning_patch {s' : ReasoningStream} {event : Option ReasoningEvent}
    (h : s.patch fragment span separator addition erase = some (s', event)) :
    event.elim s.reasoning (readReasoning s.reasoning) = s'.reasoning := by
  rw [patch] at h
  dsimp only at h
  split_ifs at h
  obtain ⟨rfl, rfl⟩ := Prod.mk.inj (Option.some.inj h)
  exact readReasoning_patched s fragment span separator addition erase

/-- A reader of what a fragment emits holds the stream's text, whatever the
spans have come to. -/
theorem readReasoning_output {s' : ReasoningStream} {event : Option ReasoningEvent}
    (h : s.outputReasoning fragment = some (s', event)) :
    event.elim s.reasoning (readReasoning s.reasoning) = s'.reasoning := by
  have hsame : ∀ {stream : ReasoningStream}, some (stream, (none : Option ReasoningEvent)) =
      some (s', event) → stream = s → event.elim s.reasoning (readReasoning s.reasoning) =
        s'.reasoning := by
    rintro stream heq rfl
    obtain ⟨rfl, rfl⟩ := Prod.mk.inj (Option.some.inj heq)
    rfl
  rw [outputReasoning.eq_def] at h
  cases hspan : Assoc.lookup fragment.part s.parts with
  | none =>
    rw [hspan] at h
    dsimp only at h
    split_ifs at h
    · exact hsame h rfl
    all_goals exact readReasoning_patch h
  | some span =>
    rw [hspan] at h
    dsimp only at h
    split_ifs at h
    · exact hsame h rfl
    · exact hsame h rfl
    · exact readReasoning_patch h
    · exact readReasoning_patch h
    · exact hsame h rfl
    · exact readReasoning_patch h

end ReasoningStream

/-! ### Runs -/

namespace ReasoningRun

open ReasoningStream

variable {r : ReasoningRun}

theorem laid_nil : ({} : ReasoningStream).Laid [] where
  text := rfl
  keys := List.Pairwise.nil
  span front p back hsplit := absurd (congrArg List.length hsplit) (by simp)
  other _ _ := rfl

/-- What a run keeps: the parts are laid out, the reader holds the text, and
nothing was thrown. -/
theorem laid_run (h : Run step Orderly {} r) :
    r.stream.Laid r.parts ∧ r.held = r.stream.reasoning ∧ r.threw = false := by
  refine Run.invariant
    (I := fun r => r.stream.Laid r.parts ∧ r.held = r.stream.reasoning ∧ r.threw = false)
    ⟨laid_nil, rfl, rfl⟩ ?_ h
  rintro r fragment ⟨hlaid, hheld, hthrew⟩ ⟨hok, hroom⟩
  obtain ⟨stream, event, houtput, hnext⟩ := hlaid.output hok hroom
  have hread := readReasoning_output houtput
  rw [step, houtput]
  refine ⟨hnext, ?_, hthrew⟩
  rw [← hread, ← hheld]

/-- **Reasoning streams.**  In every run in which no part comes up while the
newest one is empty, nothing is thrown, the text is the parts in order, each in
its span, and the reader holds it. -/
theorem reasoning_laid_out (h : Run step Orderly {} r) : r.LaidOut := by
  obtain ⟨hlaid, hheld, hthrew⟩ := laid_run h
  have hspan : ∀ p ∈ r.parts, ∃ front back, r.parts = front ++ p :: back ∧
      Assoc.lookup p.name r.stream.parts =
        some ⟨(before front).length, p.text.length, p.complete⟩ := by
    intro p hp
    obtain ⟨front, back, hsplit⟩ := List.append_of_mem hp
    exact ⟨front, back, hsplit, hlaid.span front p back hsplit⟩
  refine ⟨hlaid.text, fun p hp => ?_, ?_, hheld, hthrew⟩
  · obtain ⟨front, back, hsplit, hlookup⟩ := hspan p hp
    rw [hsplit] at hlaid
    exact ⟨_, hlookup, hlaid.spanText_eq⟩
  · intro p hp q hq hne a ha b hb
    obtain ⟨front, back, hsplit, hlookup⟩ := hspan p hp
    obtain rfl := Option.some.inj (hlookup.symm.trans ha)
    have hq' : q ∈ front ∨ q ∈ back := by
      rw [hsplit, List.mem_append, List.mem_cons] at hq
      exact hq.imp_right fun hq => hq.resolve_left fun heq => hne (heq ▸ rfl)
    -- The other part stands in front of it or behind it.
    rcases hq' with hq' | hq'
    · obtain ⟨first, between, rfl⟩ := List.append_of_mem hq'
      have hplace := hlaid.span first q (between ++ p :: back) (by simpa using hsplit)
      obtain rfl := Option.some.inj (hplace.symm.trans hb)
      right
      show _ ≤ (before (first ++ q :: between)).length
      rw [before_append_cons]
      simp only [List.length_append]
      omega
    · obtain ⟨between, last, rfl⟩ := List.append_of_mem hq'
      have hplace := hlaid.span (front ++ p :: between) q last (by simpa using hsplit)
      obtain rfl := Option.some.inj (hplace.symm.trans hb)
      left
      show _ ≤ (before (front ++ p :: between)).length
      rw [before_append_cons]
      simp only [List.length_append]
      omega

/-- Two parts, the first of them corrected. -/
def correctedFragments : List ReasoningDelta :=
  [{ part := lit "a", text := lit "one" }, { part := lit "b", text := lit "two" },
    { part := lit "a", text := lit "uno", complete := true, snapshot := true }]

/-- The second part moves with the correction. -/
theorem reasoning_laid_out_corrected :
    (correctedFragments.foldl step {}).LaidOut ∧
      (correctedFragments.foldl step {}).held = lit "uno\n\ntwo" :=
  ⟨reasoning_laid_out (Run.of_allOk (by decide)),
    by decide⟩

/-- A part is emptied by a snapshot, another comes up, and the first goes on. -/
def emptiedFragments : List ReasoningDelta :=
  [{ part := lit "a", text := lit "x" }, { part := lit "b", text := lit "y" },
    { part := lit "b", snapshot := true }, { part := lit "c", text := lit "z" },
    { part := lit "b", text := lit "q" }]

/-- **An emptied part** goes on behind the one that came up after it. -/
theorem reasoning_emptied :
    (emptiedFragments.foldl step {}).stream.reasoning = lit "x\n\n\n\nzq" ∧
      kPartSeparator.intercalate ((emptiedFragments.foldl step {}).parts.map ReasoningPart.text) =
        lit "x\n\nq\n\nz" ∧
      ¬∀ fragments : List ReasoningDelta, (fragments.foldl step {}).LaidOut := by
  refine ⟨by decide, by decide, fun h => ?_⟩
  have htext := (h emptiedFragments).text
  revert htext
  decide

/-- Two parts that were both emptied: the second takes the first below zero,
and the next text of the first is written behind the end. -/
def wrappedFragments : List ReasoningDelta :=
  [{ part := lit "a", text := lit "x" }, { part := lit "a", snapshot := true },
    { part := lit "b", text := lit "hello" }, { part := lit "b", snapshot := true },
    { part := lit "a", text := lit "world" }, { part := lit "b", text := lit "X" },
    { part := lit "a", snapshot := true }, { part := lit "b", snapshot := true },
    { part := lit "a", text := lit "Q" }]

/-- `replace` throws at it. -/
example : (wrappedFragments.foldl step {}).threw = true := by
  decide

end ReasoningRun

end UAgent
