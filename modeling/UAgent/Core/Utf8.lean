/-
UAgent/Core/Utf8.lean

Where a valid UTF-8 text can be cut: in front of a byte that continues no
codepoint, and nowhere else (`validUtf8_take`).
-/
import UAgent.Base.JsonText
import UAgent.Core.TextPages

namespace UAgent

open Bytes Json

/-- A text made of whole codepoints. -/
def ValidUtf8 (s : Bytes) : Prop := s.foldl Utf8State.step .accept = .accept

instance : DecidablePred ValidUtf8 := fun _ => by
  unfold ValidUtf8
  infer_instance

set_option maxRecDepth 4000 in
theorem isContinuation_iff (c : UInt8) : isContinuation c = true ↔ 0x80 ≤ c ∧ c < 0xc0 := by
  have hall : ∀ n : Fin 256, isContinuation (UInt8.ofNat n) = true ↔
      0x80 ≤ UInt8.ofNat n ∧ UInt8.ofNat n < 0xc0 := by decide
  simpa using hall ⟨c.toNat, c.toNat_lt⟩

@[simp] theorem foldl_reject (s : Bytes) : s.foldl Utf8State.step .reject = .reject := by
  induction s with
  | nil => rfl
  | cons c s ih => exact ih

/-- Between codepoints a continuation byte is malformed. -/
theorem step_accept_of_continuation {c : UInt8} (h : isContinuation c = true) :
    Utf8State.accept.step c = .reject := by
  obtain ⟨hlow, hhigh⟩ := (isContinuation_iff c).mp h
  have hascii : ¬c < 0x80 := by
    rw [UInt8.not_lt]
    exact hlow
  have hlead : c < 0xc2 := UInt8.lt_trans hhigh (by decide)
  rw [Utf8State.step, if_neg hascii, if_pos hlead]

/-- Inside a codepoint every other byte is. -/
theorem step_of_not_continuation {st : Utf8State} (hst : st ≠ .accept) {c : UInt8}
    (h : isContinuation c = false) : st.step c = .reject := by
  have hout : ∀ low high : UInt8, 0x80 ≤ low → high ≤ 0xc0 → ¬(low ≤ c ∧ c < high) := by
    rintro low high hlow hhigh ⟨hle, hlt⟩
    have hcontinues := (isContinuation_iff c).mpr
      ⟨UInt8.le_trans hlow hle, UInt8.lt_of_lt_of_le hlt hhigh⟩
    exact absurd (h.symm.trans hcontinues) (by decide)
  cases st with
  | accept => exact absurd rfl hst
  | reject => rfl
  | _ => exact if_neg (hout _ _ (by decide) (by decide))

theorem validUtf8_append {s t : Bytes} (h : ValidUtf8 (s ++ t)) :
    ValidUtf8 s ↔ ∀ c ∈ t.head?, isContinuation c = false := by
  rw [ValidUtf8, List.foldl_append] at h
  constructor
  · intro hs c hc
    obtain ⟨t, rfl⟩ := List.head?_eq_some_iff.mp hc
    rw [ValidUtf8] at hs
    by_contra hcontinues
    rw [Bool.not_eq_false] at hcontinues
    rw [hs, List.foldl_cons, step_accept_of_continuation hcontinues, foldl_reject] at h
    cases h
  · intro hhead
    by_contra hs
    cases t with
    | nil => exact hs h
    | cons c t =>
      rw [List.foldl_cons, step_of_not_continuation hs (hhead c rfl), foldl_reject] at h
      cases h

/-- **Cuts of a valid text.** -/
theorem validUtf8_take {s : Bytes} (h : ValidUtf8 s) (offset : Nat) :
    ValidUtf8 (s.take offset) ↔ Boundary s offset := by
  rw [← List.take_append_drop offset s] at h
  rw [validUtf8_append h, List.head?_drop, Boundary]

theorem validUtf8_drop {s : Bytes} (h : ValidUtf8 s) {offset : Nat} (hcut : Boundary s offset) :
    ValidUtf8 (s.drop offset) := by
  have htake : ValidUtf8 (s.take offset) := (validUtf8_take h offset).mpr hcut
  rw [ValidUtf8] at htake
  rw [← List.take_append_drop offset s, ValidUtf8, List.foldl_append, htake] at h
  exact h

/-- Behind an offset there is a boundary. -/
theorem boundary_boundaryAfter (s : Bytes) (offset : Nat) :
    Boundary s (utf8BoundaryAfter s offset) := by
  have hdrop : s.drop (utf8BoundaryAfter s offset) =
      (s.drop (min offset s.length)).dropWhile isContinuation := by
    rw [utf8BoundaryAfter, ← List.drop_drop]
    exact (congrArg _ (List.takeWhile_append_dropWhile (p := isContinuation)).symm).trans
      List.drop_left
  intro c hc
  rw [← List.head?_drop, hdrop] at hc
  have hnot := List.head?_dropWhile_not isContinuation (s.drop (min offset s.length))
  rw [hc] at hnot
  simpa using hnot

/-- In a text cut in front the same boundary is found. -/
theorem boundaryAfter_drop {s : Bytes} {start : Nat} (hle : start ≤ s.length) (offset : Nat) :
    start + utf8BoundaryAfter (s.drop start) offset = utf8BoundaryAfter s (start + offset) := by
  have hmin : start + min offset (s.drop start).length = min (start + offset) s.length := by
    rw [List.length_drop]
    omega
  rw [utf8BoundaryAfter, utf8BoundaryAfter, ← Nat.add_assoc, hmin, List.drop_drop, hmin]

end UAgent
