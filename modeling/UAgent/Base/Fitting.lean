/-
UAgent/Base/Fitting.lean

What a budget holds of a list, from its beginning: the elements up to the
first that no longer fits.
-/
import Mathlib.Algebra.BigOperators.Group.List.Basic
import Mathlib.Algebra.GroupWithZero.Nat

namespace Fitting

variable {α : Type*} (size : α → Nat)

/-- The elements a budget holds, up to the first that no longer fits. -/
def fitting : Nat → List α → List α
  | _, [] => []
  | budget, a :: as => if size a ≤ budget then a :: fitting (budget - size a) as else []

variable {size} {budget : Nat} {a : α}

theorem fitting_cons_of_le (h : size a ≤ budget) (as : List α) :
    fitting size budget (a :: as) = a :: fitting size (budget - size a) as := by
  rw [fitting, if_pos h]

theorem fitting_cons_of_lt (h : budget < size a) (as : List α) :
    fitting size budget (a :: as) = [] := by
  rw [fitting, if_neg (Nat.not_le.mpr h)]

theorem fitting_isPrefix (budget : Nat) (as : List α) : fitting size budget as <+: as := by
  induction as generalizing budget with
  | nil => exact List.prefix_rfl
  | cons a as ih =>
    rcases Nat.lt_or_ge budget (size a) with hlt | hle
    · rw [fitting_cons_of_lt hlt]
      exact List.nil_prefix
    · rw [fitting_cons_of_le hle]
      exact List.cons_prefix_cons.mpr ⟨rfl, ih _⟩

theorem sum_fitting_le (budget : Nat) (as : List α) :
    ((fitting size budget as).map size).sum ≤ budget := by
  induction as generalizing budget with
  | nil => exact Nat.zero_le _
  | cons a as ih =>
    rcases Nat.lt_or_ge budget (size a) with hlt | hle
    · rw [fitting_cons_of_lt hlt]
      exact Nat.zero_le _
    · have htail := ih (budget - size a)
      rw [fitting_cons_of_le hle, List.map_cons, List.sum_cons]
      omega

/-- It stops only where the next one does not fit. -/
theorem lt_sum_of_fitting (budget : Nat) (as : List α) (next : α)
    (h : fitting size budget as ++ [next] <+: as) :
    budget < ((fitting size budget as ++ [next]).map size).sum := by
  induction as generalizing budget with
  | nil => exact absurd (List.prefix_nil.mp h) (List.append_ne_nil_of_right_ne_nil _ (by simp))
  | cons a as ih =>
    rcases Nat.lt_or_ge budget (size a) with hlt | hle
    · rw [fitting_cons_of_lt hlt] at h ⊢
      obtain rfl : next = a := (List.cons_prefix_cons.mp h).1
      simpa using hlt
    · rw [fitting_cons_of_le hle] at h ⊢
      have htail := ih (budget - size a) (List.cons_prefix_cons.mp h).2
      rw [List.cons_append, List.map_cons, List.sum_cons]
      omega

theorem fitting_ne_nil (h : size a ≤ budget) (as : List α) :
    fitting size budget (a :: as) ≠ [] := by
  rw [fitting_cons_of_le h]
  exact List.cons_ne_nil _ _

end Fitting
