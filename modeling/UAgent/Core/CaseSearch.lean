/-
UAgent/Core/CaseSearch.lean

`ContainsCaseInsensitive` of src/core/strings.cc: a Boyer-Moore-Horspool
search over ASCII-folded bytes.  The window is compared from its last byte
backwards, and then moves by the entry of a shift table for the text byte
under its end, so most bytes of a large text are never read.

**`containsCaseInsensitive_iff`**: the search finds exactly the texts whose
folding holds the folded query, so no shift skips an occurrence.
-/
import UAgent.Core.Strings
import Mathlib.Data.List.Infix

namespace UAgent

open Bytes

/-! ### The search -/

/-- One turn of the loop that fills the shift table: the entries of the folded
byte and of its capital. -/
def setShift (query : Bytes) (shift : UInt8 → Nat) (i : Nat) : UInt8 → Nat := fun b =>
  let c := lowerChar (query.getD i 0)
  if b = c ∨ (0x61 ≤ c ∧ c ≤ 0x7a ∧ b = c - 0x61 + 0x41) then query.length - 1 - i else shift b

/-- How far the window moves when a byte stands under its end. -/
def shiftTable (query : Bytes) : UInt8 → Nat :=
  (List.range (query.length - 1)).foldl (setShift query) fun _ => query.length

/-- The inner loop: compares the first `i` bytes of the window from behind. -/
def matchesBack (text query : Bytes) (pos : Nat) : Nat → Bool
  | 0 => true
  | i + 1 => lowerChar (text.getD (pos + i) 0) == lowerChar (query.getD i 0) &&
      matchesBack text query pos i

/-- The outer loop, from the window at `pos`. -/
def searchFrom (text query : Bytes) : Nat → Nat → Bool
  | 0, _ => false
  | fuel + 1, pos =>
    if pos + query.length ≤ text.length then
      matchesBack text query pos query.length ||
        searchFrom text query fuel
          (pos + shiftTable query (text.getD (pos + query.length - 1) 0))
    else false

/-- `ContainsCaseInsensitive`.  Every turn moves the window, so one turn for
each byte of the text is enough. -/
def containsCaseInsensitive (text query : Bytes) : Bool :=
  if query.length = 0 then true
  else if text.length < query.length then false
  else searchFrom text query (text.length + 1) 0

/-! ### Comparing a window -/

/-- The window at `pos` folds to the first `n` bytes of the folded query. -/
def WindowAt (text query : Bytes) (pos n : Nat) : Prop :=
  ∀ i < n, lowerChar (text.getD (pos + i) 0) = lowerChar (query.getD i 0)

theorem matchesBack_iff {text query : Bytes} {pos n : Nat} :
    matchesBack text query pos n = true ↔ WindowAt text query pos n := by
  induction n with
  | zero => simp [matchesBack, WindowAt]
  | succ n ih =>
    rw [matchesBack, Bool.and_eq_true, beq_iff_eq, ih]
    constructor
    · rintro ⟨hlast, hrest⟩ i hi
      rcases Nat.lt_succ_iff_lt_or_eq.mp hi with hi | rfl
      · exact hrest i hi
      · exact hlast
    · exact fun h => ⟨h n n.lt_succ_self, fun i hi => h i (Nat.lt_succ_of_lt hi)⟩

/-- An occurrence of the folded query is a window over the whole of it. -/
theorem infix_iff_window {text query : Bytes} :
    asciiLower query <:+: asciiLower text ↔
      ∃ pos, pos + query.length ≤ text.length ∧ WindowAt text query pos query.length := by
  rw [List.infix_iff_getElem?]
  simp only [asciiLower, List.length_map, List.getElem?_map, List.getElem_map]
  constructor
  · rintro ⟨pos, hlen, h⟩
    refine ⟨pos, by omega, fun i hi => ?_⟩
    have hi' := h i hi
    rw [Nat.add_comm i pos, List.getElem?_eq_getElem (by omega)] at hi'
    rw [List.getD_eq_getElem?_getD, List.getD_eq_getElem?_getD,
      List.getElem?_eq_getElem (by omega), List.getElem?_eq_getElem hi]
    simpa using hi'
  · rintro ⟨pos, hlen, h⟩
    refine ⟨pos, by omega, fun i hi => ?_⟩
    have hi' := h i hi
    rw [List.getD_eq_getElem?_getD, List.getD_eq_getElem?_getD,
      List.getElem?_eq_getElem (by omega), List.getElem?_eq_getElem hi] at hi'
    rw [Nat.add_comm i pos, List.getElem?_eq_getElem (by omega)]
    simpa using hi'

/-! ### The shift table -/

/-- A byte is its folding, or the capital of it. -/
theorem eq_lowerChar_or_capital (b : UInt8) :
    b = lowerChar b ∨
      (0x61 ≤ lowerChar b ∧ lowerChar b ≤ 0x7a ∧ b = lowerChar b - 0x61 + 0x41) :=
  forall_byte (P := fun b => b = lowerChar b ∨
    (0x61 ≤ lowerChar b ∧ lowerChar b ≤ 0x7a ∧ b = lowerChar b - 0x61 + 0x41)) (by decide) b

/-- The table over the first `n` positions: it moves the window, and never
past a position that holds the byte. -/
theorem shiftTable_spec (query : Bytes) (n : Nat) (hn : n ≤ query.length - 1) (b : UInt8)
    (hne : query ≠ []) :
    0 < (List.range n).foldl (setShift query) (fun _ => query.length) b ∧
      (List.range n).foldl (setShift query) (fun _ => query.length) b ≤ query.length ∧
        ∀ i < n, lowerChar b = lowerChar (query.getD i 0) →
          (List.range n).foldl (setShift query) (fun _ => query.length) b ≤
            query.length - 1 - i := by
  have hpos := List.length_pos_iff.mpr hne
  induction n with
  | zero => simpa using hpos
  | succ n ih =>
    obtain ⟨hlow, hhigh, hseen⟩ := ih (by omega)
    rw [List.range_succ, List.foldl_append, List.foldl_cons, List.foldl_nil, setShift]
    refine ⟨?_, ?_, fun i hi hb => ?_⟩
    · split_ifs <;> omega
    · split_ifs <;> omega
    · rcases Nat.lt_succ_iff_lt_or_eq.mp hi with hi | rfl
      · have hle := hseen i hi hb
        split_ifs <;> omega
      · rw [← hb, if_pos (eq_lowerChar_or_capital b)]

/-- The window is not moved past an occurrence. -/
theorem shift_le {text query : Bytes} (hne : query ≠ []) {pos at' : Nat} (hlt : pos < at')
    (h : WindowAt text query at' query.length) :
    pos + shiftTable query (text.getD (pos + query.length - 1) 0) ≤ at' := by
  have hpos := List.length_pos_iff.mpr hne
  obtain ⟨-, hle, hseen⟩ :=
    shiftTable_spec query (query.length - 1) le_rfl (text.getD (pos + query.length - 1) 0) hne
  change shiftTable query _ ≤ _ at hle
  by_cases hfar : pos + query.length ≤ at'
  · omega
  · -- the byte under the end of this window lies in the occurrence
    have hb := h (pos + query.length - 1 - at') (by omega)
    rw [show at' + (pos + query.length - 1 - at') = pos + query.length - 1 by omega] at hb
    have hmove := hseen _ (by omega) hb
    change shiftTable query _ ≤ _ at hmove
    omega

theorem shift_pos {query : Bytes} (hne : query ≠ []) (b : UInt8) : 0 < shiftTable query b :=
  (shiftTable_spec query (query.length - 1) le_rfl b hne).1

/-- From a window that no occurrence lies before, the loop finds what there is
to find. -/
theorem searchFrom_iff {text query : Bytes} (hne : query ≠ []) {fuel pos : Nat}
    (hfuel : text.length < fuel + pos) :
    searchFrom text query fuel pos = true ↔
      ∃ at', pos ≤ at' ∧ at' + query.length ≤ text.length ∧
        WindowAt text query at' query.length := by
  induction fuel generalizing pos with
  | zero =>
    simp only [searchFrom, Bool.false_eq_true, false_iff]
    rintro ⟨at', hle, hfit, -⟩
    omega
  | succ fuel ih =>
    have hmove := shift_pos hne (text.getD (pos + query.length - 1) 0)
    rw [searchFrom]
    split_ifs with hfit
    · rw [Bool.or_eq_true, matchesBack_iff, ih (by omega)]
      constructor
      · rintro (h | ⟨at', hle, hrest⟩)
        · exact ⟨pos, le_rfl, hfit, h⟩
        · exact ⟨at', by omega, hrest⟩
      · rintro ⟨at', hle, hfit', h⟩
        rcases hle.eq_or_lt with rfl | hlt
        · exact Or.inl h
        · exact Or.inr ⟨at', shift_le hne hlt h, hfit', h⟩
    · simp only [false_iff]
      rintro ⟨at', hle, hfit', -⟩
      omega

/-- **The search finds exactly what it is asked for**: a text whose folding
holds the folded query. -/
theorem containsCaseInsensitive_iff {text query : Bytes} :
    containsCaseInsensitive text query = true ↔ asciiLower query <:+: asciiLower text := by
  rw [infix_iff_window, containsCaseInsensitive]
  split_ifs with hempty hshort
  · have hnil := List.length_eq_zero_iff.mp hempty
    refine iff_of_true rfl ⟨0, by simp [hnil], fun i hi => ?_⟩
    rw [hempty] at hi
    omega
  · simp only [false_iff]
    rintro ⟨pos, hfit, -⟩
    omega
  · rw [searchFrom_iff (fun h => hempty (by simp [h])) (by omega)]
    simp

/-- Every turn of the loop moves the window, and the search says whether the
folded query occurs in the folded text. -/
theorem caseSearch_exact (text query : Bytes) :
    (∀ b, query = [] ∨ 0 < shiftTable query b) ∧
      (containsCaseInsensitive text query = true ↔ asciiLower query <:+: asciiLower text) := by
  refine ⟨fun b => ?_, containsCaseInsensitive_iff⟩
  rcases eq_or_ne query [] with hempty | hne
  · exact .inl hempty
  · exact .inr (shift_pos hne b)

end UAgent
