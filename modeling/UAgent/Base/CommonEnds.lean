/-
UAgent/Base/CommonEnds.lean

How far two lists agree from their beginning, and what is left between the
agreeing ends of two lists when first the beginnings are taken off and then,
of what remains, the ends.
-/
import Mathlib.Data.List.TakeDrop

namespace CommonEnds

variable {α : Type*} [DecidableEq α]

/-- How many elements the two lists share from their beginning. -/
def common (a b : List α) : Nat := ((a.zip b).takeWhile fun pair => pair.1 = pair.2).length

theorem common_cons (x y : α) (a b : List α) :
    common (x :: a) (y :: b) = if x = y then common a b + 1 else 0 := by
  rw [common, List.zip_cons_cons, List.takeWhile_cons]
  by_cases h : x = y
  · simp [h, common]
  · simp [h]

theorem common_nil_left (b : List α) : common ([] : List α) b = 0 := rfl

theorem common_nil_right (a : List α) : common a ([] : List α) = 0 := by
  rw [common, List.zip_nil_right]
  rfl

theorem common_comm (a b : List α) : common a b = common b a := by
  induction a generalizing b with
  | nil => rw [common_nil_left, common_nil_right]
  | cons x a ih =>
    cases b with
    | nil => rw [common_nil_left, common_nil_right]
    | cons y b =>
      rw [common_cons, common_cons, ih]
      simp only [eq_comm]

theorem common_le (a b : List α) : common a b ≤ a.length := by
  induction a generalizing b with
  | nil => exact Nat.le_refl 0
  | cons x a ih =>
    cases b with
    | nil => exact Nat.zero_le _
    | cons y b =>
      rw [common_cons]
      split_ifs
      · exact Nat.succ_le_succ (ih b)
      · exact Nat.zero_le _

/-- What is counted is the same in both. -/
theorem take_common (a b : List α) : a.take (common a b) = b.take (common a b) := by
  induction a generalizing b with
  | nil => rw [common_nil_left, List.take_zero, List.take_zero]
  | cons x a ih =>
    cases b with
    | nil => rw [common_nil_right, List.take_zero, List.take_zero]
    | cons y b =>
      rw [common_cons]
      split_ifs with h
      · rw [List.take_succ_cons, List.take_succ_cons, h, ih]
      · rw [List.take_zero, List.take_zero]

/-- And the count ends where they differ, or where one does. -/
theorem getElem?_common (a b : List α) (ha : common a b < a.length) (hb : common a b < b.length) :
    a[common a b]? ≠ b[common a b]? := by
  induction a generalizing b with
  | nil => exact absurd ha (Nat.not_lt_zero _)
  | cons x a ih =>
    cases b with
    | nil => exact absurd hb (Nat.not_lt_zero _)
    | cons y b =>
      rw [common_cons] at ha hb ⊢
      split_ifs at ha hb ⊢ with h
      · rw [List.getElem?_cons_succ, List.getElem?_cons_succ]
        exact ih b (Nat.lt_of_succ_lt_succ ha) (Nat.lt_of_succ_lt_succ hb)
      · simpa using h

/-- How many elements the two lists share from their end. -/
def commonEnd (a b : List α) : Nat := common a.reverse b.reverse

theorem commonEnd_comm (a b : List α) : commonEnd a b = commonEnd b a := common_comm _ _

theorem commonEnd_le (a b : List α) : commonEnd a b ≤ a.length := by
  have h := common_le a.reverse b.reverse
  rwa [List.length_reverse] at h

theorem drop_commonEnd (a b : List α) :
    a.drop (a.length - commonEnd a b) = b.drop (b.length - commonEnd a b) := by
  have h := congrArg List.reverse (take_common a.reverse b.reverse)
  rwa [List.take_reverse, List.take_reverse, List.reverse_reverse, List.reverse_reverse] at h

/-- The elements before the shared end differ. -/
theorem getElem?_commonEnd (a b : List α) (ha : commonEnd a b < a.length)
    (hb : commonEnd a b < b.length) :
    a[a.length - 1 - commonEnd a b]? ≠ b[b.length - 1 - commonEnd a b]? := by
  have h := getElem?_common a.reverse b.reverse (by rwa [List.length_reverse])
    (by rwa [List.length_reverse])
  have ha' : common a.reverse b.reverse < a.length := ha
  have hb' : common a.reverse b.reverse < b.length := hb
  rwa [List.getElem?_reverse ha', List.getElem?_reverse hb'] at h

end CommonEnds
