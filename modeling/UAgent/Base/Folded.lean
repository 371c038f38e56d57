/-
UAgent/Base/Folded.lean

A sorted list folded along a relation `covers`: an entry is left out when it
was kept already, or when one that was kept covers it and `keep` does not hold
it back.

What is left covers what the list covers (`covered_fold`), is the same for all
lists with the same entries (`fold_congr`), and holds no entry that another of
them covers without need (`mem_fold`).
-/
import Mathlib.Data.List.Induction
import Mathlib.Data.List.Sort

namespace Folded

variable {α : Type*} [DecidableEq α] (covers : α → α → Bool) (keep : α → Bool)

/-- Whether an entry is left out behind those that were kept. -/
def left (kept : List α) (x : α) : Bool :=
  kept.contains x || kept.any (covers · x) && !keep x

def fold (xs : List α) : List α :=
  xs.foldl (fun kept x => if left covers keep kept x then kept else kept ++ [x]) []

theorem fold_concat (xs : List α) (x : α) :
    fold covers keep (xs ++ [x]) =
      if left covers keep (fold covers keep xs) x then fold covers keep xs
      else fold covers keep xs ++ [x] := by
  rw [fold, List.foldl_append]
  rfl

variable {covers keep} {xs ys : List α} {x p : α}

theorem left_eq_true {kept : List α} :
    left covers keep kept x = true ↔
      x ∈ kept ∨ (∃ k ∈ kept, covers k x = true) ∧ keep x = false := by
  simp [left]

theorem fold_sublist (xs : List α) : (fold covers keep xs).Sublist xs := by
  induction xs using List.reverseRecOn with
  | nil => exact List.Sublist.refl _
  | append_singleton xs x ih =>
    rw [fold_concat]
    split_ifs
    · exact ih.trans (List.sublist_append_left xs [x])
    · exact ih.append_right [x]

theorem nodup_fold (xs : List α) : (fold covers keep xs).Nodup := by
  induction xs using List.reverseRecOn with
  | nil => exact List.nodup_nil
  | append_singleton xs x ih =>
    rw [fold_concat]
    split_ifs with hleft
    · exact ih
    · refine ih.append (List.nodup_singleton x) fun y hy hx => hleft (left_eq_true.mpr (.inl ?_))
      exact List.mem_singleton.mp hx ▸ hy

section Trans

variable (htrans : ∀ a b c, covers a b = true → covers b c = true → covers a c = true)
include htrans

/-- Folding loses nothing that was covered. -/
theorem covered_fold :
    (∃ k ∈ fold covers keep xs, covers k p = true) ↔ ∃ k ∈ xs, covers k p = true := by
  constructor
  · rintro ⟨k, hk, hcovers⟩
    exact ⟨k, (fold_sublist xs).subset hk, hcovers⟩
  · induction xs using List.reverseRecOn with
    | nil => exact id
    | append_singleton xs x ih =>
      rintro ⟨k, hk, hcovers⟩
      rw [fold_concat]
      have hstays : (∃ k ∈ fold covers keep xs, covers k p = true) →
          ∃ k ∈ if left covers keep (fold covers keep xs) x then fold covers keep xs
            else fold covers keep xs ++ [x], covers k p = true := by
        rintro ⟨k, hk, hcovers⟩
        refine ⟨k, ?_, hcovers⟩
        split_ifs
        · exact hk
        · exact List.mem_append_left _ hk
      rcases List.mem_append.mp hk with hk | hk
      · exact hstays (ih ⟨k, hk, hcovers⟩)
      rw [List.mem_singleton] at hk
      subst hk
      by_cases hleft : left covers keep (fold covers keep xs) k = true
      · refine hstays ?_
        rcases left_eq_true.mp hleft with hmem | ⟨⟨m, hm, hcovers'⟩, -⟩
        · exact ⟨k, hmem, hcovers⟩
        · exact ⟨m, hm, htrans m k p hcovers' hcovers⟩
      · rw [if_neg hleft]
        exact ⟨k, List.mem_append_right _ (List.mem_singleton_self k), hcovers⟩

variable {le : α → α → Prop} (hle : ∀ a b, covers a b = true → le a b)
  (hantisymm : ∀ a b, le a b → le b a → a = b)
include hle hantisymm

/-- What is left: the entries that are kept whatever covers them, and those
that no other entry covers. -/
theorem mem_fold (hsorted : xs.Pairwise le) :
    x ∈ fold covers keep xs ↔
      x ∈ xs ∧ (keep x = true ∨ ∀ k ∈ xs, covers k x = true → k = x) := by
  induction xs using List.reverseRecOn generalizing x with
  | nil => simp [fold]
  | append_singleton xs y ih =>
    obtain ⟨hearlier, -, hbefore⟩ := List.pairwise_append.mp hsorted
    have hbefore : ∀ k ∈ xs, le k y := fun k hk => hbefore k hk y (List.mem_singleton_self y)
    rw [fold_concat]
    by_cases hxy : x = y
    · subst hxy
      have hself : (∀ k ∈ xs ++ [x], covers k x = true → k = x) ↔
          ∀ k ∈ xs, covers k x = true → k = x := by
        simp [List.mem_append, or_imp, forall_and]
      rw [hself]
      by_cases hleft : left covers keep (fold covers keep xs) x = true
      · rw [if_pos hleft, ih hearlier]
        refine ⟨fun h => ⟨List.mem_append_left _ h.1, h.2⟩, fun h => ⟨?_, h.2⟩⟩
        rcases left_eq_true.mp hleft with hmem | ⟨⟨k, hk, hcovers⟩, hkeep⟩
        · exact (fold_sublist xs).subset hmem
        · have hmem := (fold_sublist xs).subset hk
          have hone := h.2.resolve_left (Bool.eq_false_iff.mp hkeep) k hmem hcovers
          exact hone ▸ hmem
      · rw [if_neg hleft]
        refine iff_of_true (by simp) ⟨by simp, ?_⟩
        have hnot := mt left_eq_true.mpr hleft
        rw [not_or, not_and] at hnot
        by_cases hkeep : keep x = true
        · exact .inl hkeep
        · refine .inr fun k hk hcovers => absurd (Bool.eq_false_iff.mpr hkeep) (hnot.2 ?_)
          exact (covered_fold htrans).mpr ⟨k, hk, hcovers⟩
    · have hsame : x ∈ (if left covers keep (fold covers keep xs) y then fold covers keep xs
          else fold covers keep xs ++ [y]) ↔ x ∈ fold covers keep xs := by
        split_ifs
        · exact Iff.rfl
        · simp [hxy]
      rw [hsame, ih hearlier]
      constructor
      · rintro ⟨hx, hkept⟩
        refine ⟨List.mem_append_left _ hx, hkept.imp_right fun h k hk hcovers => ?_⟩
        rcases List.mem_append.mp hk with hk | hk
        · exact h k hk hcovers
        · -- what comes behind covers nothing before it
          rw [List.mem_singleton] at hk
          subst hk
          exact hantisymm k x (hle k x hcovers) (hbefore x hx)
      · rintro ⟨hx, hkept⟩
        have hx : x ∈ xs := (List.mem_append.mp hx).resolve_right fun h =>
          hxy (List.mem_singleton.mp h)
        exact ⟨hx, hkept.imp_right fun h k hk => h k (List.mem_append_left _ hk)⟩

/-- The result is a function of the set of entries. -/
theorem fold_congr (hxs : xs.Pairwise le) (hys : ys.Pairwise le) (hmem : ∀ x, x ∈ xs ↔ x ∈ ys) :
    fold covers keep xs = fold covers keep ys := by
  have hperm : (fold covers keep xs).Perm (fold covers keep ys) := by
    refine (List.perm_ext_iff_of_nodup (nodup_fold xs) (nodup_fold ys)).mpr fun x => ?_
    rw [mem_fold htrans hle hantisymm hxs, mem_fold htrans hle hantisymm hys]
    simp only [hmem]
  exact hperm.eq_of_pairwise (fun a b _ _ => hantisymm a b) (hxs.sublist (fold_sublist xs))
    (hys.sublist (fold_sublist ys))

end Trans

end Folded
