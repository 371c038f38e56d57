/-
UAgent/Base/Weight.lean

The weight of a part of a map: the sum over the entries whose keys are in the
part.  Writing a key replaces its share of the sum and erasing it takes the
share away; the part may change where the entries weigh nothing.
-/
import UAgent.Base.Json
import Mathlib.Algebra.BigOperators.Group.List.Basic
import Mathlib.Algebra.GroupWithZero.Nat

namespace Assoc

variable {κ β : Type*} [DecidableEq κ] {p q : κ → Bool} {w : β → Nat} {m : List (κ × β)} {k : κ}

/-- What the entries whose keys meet `p` weigh together. -/
def weight (p : κ → Bool) (w : β → Nat) (m : List (κ × β)) : Nat :=
  (m.map fun e => if p e.1 then w e.2 else 0).sum

omit [DecidableEq κ] in
theorem weight_perm {m' : List (κ × β)} (h : m.Perm m') : weight p w m = weight p w m' :=
  (h.map _).sum_eq

omit [DecidableEq κ] in
theorem weight_cons (e : κ × β) (m : List (κ × β)) :
    weight p w (e :: m) = (if p e.1 then w e.2 else 0) + weight p w m := List.sum_cons

omit [DecidableEq κ] in
/-- Entries that weigh nothing may be in the part or not. -/
theorem weight_congr (h : ∀ e ∈ m, p e.1 = q e.1 ∨ w e.2 = 0) : weight p w m = weight q w m := by
  induction m with
  | nil => rfl
  | cons e m ih =>
    rw [weight_cons, weight_cons, ih fun e' he => h e' (List.mem_cons_of_mem e he)]
    rcases h e List.mem_cons_self with heq | hzero
    · rw [heq]
    · simp [hzero]

omit [DecidableEq κ] in
theorem weight_eq_zero (h : ∀ e ∈ m, p e.1 → w e.2 = 0) : weight p w m = 0 := by
  induction m with
  | nil => rfl
  | cons e m ih =>
    rw [weight_cons, ih fun e' he => h e' (List.mem_cons_of_mem e he)]
    by_cases hp : p e.1
    · rw [if_pos hp, h e List.mem_cons_self hp]
    · rw [if_neg hp]

/-- What weighs nothing may be erased. -/
theorem weight_erase (h : ∀ v, (k, v) ∈ m → p k → w v = 0) :
    weight p w (erase k m) = weight p w m := by
  induction m with
  | nil => rfl
  | cons e m ih =>
    have hrest := ih fun v hv => h v (List.mem_cons_of_mem e hv)
    by_cases hk : e.1 = k
    · have hgone : erase k (e :: m) = erase k m := List.filter_cons_of_neg (by simpa using hk)
      have hzero : (if p e.1 then w e.2 else 0) = 0 := by
        by_cases hp : p e.1
        · rw [if_pos hp]
          exact h e.2 (hk ▸ List.mem_cons_self) (hk ▸ hp)
        · exact if_neg hp
      rw [hgone, hrest, weight_cons, hzero, Nat.zero_add]
    · have hstays : erase k (e :: m) = e :: erase k m := List.filter_cons_of_pos (by simpa using hk)
      rw [hstays, weight_cons, weight_cons, hrest]

section Order

variable [LT κ] [DecidableLT κ] [IsStrictTotalOrder κ (· < ·)]

/-- Writing a key replaces its share. -/
theorem weight_insert (hsorted : Sorted m) (v : β) :
    weight p w (insert k v m) = (if p k then w v else 0) + weight p w (erase k m) := by
  rw [weight_perm (insert_perm_erase hsorted v), weight_cons]

/-- Writing outside the part changes nothing. -/
theorem weight_insert_of_not (hsorted : Sorted m) (v : β) (h : p k = false) :
    weight p w (insert k v m) = weight p w m := by
  have hnone : ∀ v, (k, v) ∈ m → p k → w v = 0 := fun v _ hp => absurd hp (by simp [h])
  rw [weight_insert hsorted v, weight_erase hnone, h]
  exact Nat.zero_add _

end Order

end Assoc
