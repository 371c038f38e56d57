/-
UAgent/Base/FirstFree.lean

The first of a numbered row of candidates that is not taken.  When no two
candidates are the same there is always one (`firstFree_not_mem`): the taken
ones cannot be more than there are things taken.
-/
import Mathlib.Data.List.Perm.Subperm
import Mathlib.Data.List.Range
import Mathlib.Data.List.Nodup

section FirstFree

variable {α : Type*} [DecidableEq α]

/-- The first candidate that is not taken. -/
def firstFree (taken : List α) (candidate : Nat → α) : α :=
  (((List.range (taken.length + 1)).map candidate).find? (· ∉ taken)).getD (candidate 0)

variable {taken : List α} {candidate : Nat → α}

/-- Not all of more candidates than things taken are taken. -/
theorem exists_candidate_not_mem (hinj : Function.Injective candidate) :
    ∃ i < taken.length + 1, candidate i ∉ taken := by
  by_contra hnone
  have hall : ∀ i < taken.length + 1, candidate i ∈ taken := fun i hi => by
    by_contra hfree
    exact hnone ⟨i, hi, hfree⟩
  have hsub : (List.range (taken.length + 1)).map candidate ⊆ taken := fun x hx => by
    obtain ⟨i, hi, rfl⟩ := List.mem_map.mp hx
    exact hall i (List.mem_range.mp hi)
  have hle := (List.nodup_range.map hinj).subperm hsub |>.length_le
  rw [List.length_map, List.length_range] at hle
  omega

/-- **The candidate found is free.** -/
theorem firstFree_not_mem (hinj : Function.Injective candidate) :
    firstFree taken candidate ∉ taken := by
  obtain ⟨i, hi, hfree⟩ := @exists_candidate_not_mem _ _ taken candidate hinj
  rw [firstFree]
  rcases hfind : ((List.range (taken.length + 1)).map candidate).find? (· ∉ taken) with - | x
  · have hnone := List.find?_eq_none.mp hfind (candidate i)
      (List.mem_map_of_mem (List.mem_range.mpr hi))
    exact absurd hfree (by simpa using hnone)
  · simpa using List.find?_some hfind

/-- What is found is one of the candidates. -/
theorem firstFree_mem (taken : List α) (candidate : Nat → α) :
    ∃ n, candidate n = firstFree taken candidate := by
  rw [firstFree]
  rcases hfind : ((List.range (taken.length + 1)).map candidate).find? (· ∉ taken) with - | x
  · exact ⟨0, rfl⟩
  · obtain ⟨n, -, hn⟩ := List.mem_map.mp (List.mem_of_find?_eq_some hfind)
    exact ⟨n, hn⟩

/-- A first candidate that is free is the one found. -/
theorem firstFree_eq_self (h : candidate 0 ∉ taken) : firstFree taken candidate = candidate 0 := by
  rw [firstFree, List.range_succ_eq_map, List.map_cons, List.find?_cons_of_pos (by simpa using h),
    Option.getD_some]

end FirstFree
