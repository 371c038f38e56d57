/-
UAgent/Base/Occurrences.lean

The occurrences of a pattern in a text, as a search finds them that starts
over behind each one: from the left and without overlap.  `Cuts pat s pieces`
says that they cut `s` into `pieces`.  Every text is cut in exactly one way
(`exists_cuts`, `Cuts.unique`), joining the pieces with the pattern gives the
text back, and joining them with another text replaces every occurrence.

`scan` is a pass over a text that takes each such occurrence as one step;
`Cuts.scan_eq` computes it from the pieces.
-/
import UAgent.Base.Bytes
import Mathlib.Algebra.BigOperators.Group.List.Basic
import Mathlib.Tactic.Ring

namespace Bytes

variable {α : Type*} [DecidableEq α] {pat : List α}

/-! ### Found or not -/

/-- What is found is where the pattern stands. -/
theorem exists_eq_append_of_find {s : List α} {i : Nat} (h : find pat s = some i) :
    ∃ a b, s = a ++ (pat ++ b) ∧ a.length = i := by
  induction s generalizing i with
  | nil =>
    rw [find] at h
    split_ifs at h with hpat
    · exact ⟨[], [], by simp [hpat], by simpa using h⟩
  | cons c s ih =>
    rw [find] at h
    split_ifs at h with hpre
    · obtain ⟨b, hb⟩ := hpre
      exact ⟨[], b, hb.symm, by simpa using h⟩
    · obtain ⟨j, hj, rfl⟩ := Option.map_eq_some_iff.mp h
      obtain ⟨a, b, rfl, rfl⟩ := ih hj
      exact ⟨c :: a, b, rfl, rfl⟩

theorem find_eq_none_iff {s : List α} : find pat s = none ↔ ¬pat <:+: s := by
  refine ⟨?_, find_eq_none⟩
  rintro h ⟨a, b, rfl⟩
  obtain ⟨i, -, hi⟩ := exists_find_le (List.prefix_append pat b) a
  rw [List.append_assoc, hi] at h
  exact absurd h (by simp)

theorem exists_find_iff {s : List α} : (∃ i, find pat s = some i) ↔ pat <:+: s := by
  rw [← not_iff_not, ← find_eq_none_iff, Option.eq_none_iff_forall_ne_some, not_exists]

/-- A first occurrence leaves no room for an earlier one. -/
theorem not_isPrefix_of_find {c : α} {a s : List α}
    (h : find pat (c :: (a ++ s)) = some (a.length + 1)) : ¬pat <+: c :: (a ++ s) := fun hpre => by
  rw [find_append_of_isPrefix hpre] at h
  exact absurd h (by simp)

/-- Past its first character the first occurrence is still the first. -/
theorem find_tail {c : α} {a s : List α} (h : find pat (c :: (a ++ s)) = some (a.length + 1)) :
    find pat (a ++ s) = some a.length := by
  rw [find, if_neg (not_isPrefix_of_find h)] at h
  obtain ⟨i, hi, hlen⟩ := Option.map_eq_some_iff.mp h
  rw [hi, Nat.succ.inj hlen]

/-- No later start before the first occurrence is one. -/
theorem not_isPrefix_of_find_append {u v s : List α}
    (h : find pat (u ++ v ++ s) = some (u ++ v).length) (hv : v ≠ []) : ¬pat <+: v ++ s := by
  induction u with
  | nil =>
    obtain ⟨c, v, rfl⟩ := List.exists_cons_of_ne_nil hv
    exact not_isPrefix_of_find h
  | cons c u ih => exact ih (find_tail h)

/-! ### The pieces between the occurrences -/

/-- The pieces a text falls into when every occurrence of `pat` is taken out. -/
inductive Cuts (pat : List α) : List α → List (List α) → Prop
  | last {s : List α} (h : ¬pat <:+: s) : Cuts pat s [s]
  | cut {a s : List α} {pieces : List (List α)} (h : find pat (a ++ (pat ++ s)) = some a.length)
      (rest : Cuts pat s pieces) : Cuts pat (a ++ (pat ++ s)) (a :: pieces)

namespace Cuts

theorem ne_nil {s : List α} {pieces : List (List α)} (h : Cuts pat s pieces) : pieces ≠ [] := by
  cases h <;> exact List.cons_ne_nil _ _

/-- The pieces and the pattern between them are the text. -/
theorem joinWith_eq {s : List α} {pieces : List (List α)} (h : Cuts pat s pieces) :
    joinWith pat pieces = s := by
  induction h with
  | last => exact joinWith_singleton pat _
  | @cut a s pieces _ rest ih =>
    rw [← List.singleton_append, joinWith_append pat (List.cons_ne_nil a []) rest.ne_nil, ih,
      joinWith_singleton, List.append_assoc]

theorem unique_of_eq {s s' : List α} {pieces pieces' : List (List α)} (h : Cuts pat s pieces)
    (h' : Cuts pat s' pieces') (hs : s = s') : pieces = pieces' := by
  induction h generalizing s' pieces' with
  | last hnone =>
    cases h' with
    | last => rw [hs]
    | cut hfind =>
      rw [← hs, find_eq_none hnone] at hfind
      exact absurd hfind (by simp)
  | @cut a s pieces hfind rest ih =>
    cases h' with
    | last hnone =>
      rw [hs, find_eq_none hnone] at hfind
      exact absurd hfind (by simp)
    | @cut a' t pieces' hfind' rest' =>
      have hlen : a.length = a'.length := by
        rw [hs, hfind'] at hfind
        exact (Option.some.inj hfind).symm
      obtain ⟨rfl, htail⟩ := List.append_inj hs hlen
      rw [ih rest' (List.append_cancel_left htail)]

/-- A text is cut in one way only. -/
theorem unique {s : List α} {pieces pieces' : List (List α)} (h : Cuts pat s pieces)
    (h' : Cuts pat s pieces') : pieces = pieces' :=
  h.unique_of_eq h' rfl

/-- The empty pattern would be found without end. -/
theorem pattern_ne_nil {s : List α} {pieces : List (List α)} (h : Cuts pat s pieces) : pat ≠ [] := by
  induction h with
  | last h =>
    rintro rfl
    exact h List.nil_infix
  | cut _ _ ih => exact ih

/-- There is no occurrence when nothing is cut. -/
theorem length_eq_one_iff {s : List α} {pieces : List (List α)} (h : Cuts pat s pieces) :
    pieces.length = 1 ↔ ¬pat <:+: s := by
  cases h with
  | last hnone => exact iff_of_true rfl hnone
  | @cut a s pieces hfind rest =>
    have hpos := List.length_pos_of_ne_nil rest.ne_nil
    refine iff_of_false ?_ (not_not_intro (exists_find_iff.mp ⟨_, hfind⟩))
    rw [List.length_cons]
    omega

/-- Where the first occurrence stands. -/
theorem find_eq {s : List α} {pieces : List (List α)} (h : Cuts pat s pieces) :
    find pat s = if pieces.length = 1 then none else pieces.head?.map List.length := by
  cases h with
  | last hnone => exact find_eq_none hnone
  | cut hfind rest =>
    have hpos := List.length_pos_of_ne_nil rest.ne_nil
    rw [hfind, if_neg]
    · rfl
    · rw [List.length_cons]
      omega

end Cuts

/-- Every text is cut by a pattern that is not empty. -/
theorem exists_cuts (hpat : pat ≠ []) (s : List α) : ∃ pieces, Cuts pat s pieces := by
  induction hn : s.length using Nat.strongRecOn generalizing s with
  | ind n ih =>
    rcases hfind : find pat s with - | i
    · exact ⟨[s], .last (find_eq_none_iff.mp hfind)⟩
    · obtain ⟨a, b, rfl, rfl⟩ := exists_eq_append_of_find hfind
      have hpos := List.length_pos_of_ne_nil hpat
      have hlt : b.length < n := by
        rw [← hn, List.length_append, List.length_append]
        omega
      obtain ⟨pieces, hpieces⟩ := ih _ hlt b rfl
      exact ⟨a :: pieces, .cut hfind hpieces⟩

/-! ### Lengths -/

omit [DecidableEq α] in
theorem length_joinWith (sep x : List α) (xs : List (List α)) :
    (joinWith sep (x :: xs)).length =
      x.length + (xs.map List.length).sum + xs.length * sep.length := by
  rw [joinWith, List.length_append, Nat.add_assoc]
  congr 1
  induction xs with
  | nil => simp
  | cons y ys ih =>
    rw [List.flatMap_cons, List.length_append, List.length_append, ih, List.map_cons, List.sum_cons,
      List.length_cons]
    ring

/-- Joining the pieces with another text changes the length by the difference
for each occurrence. -/
theorem Cuts.length_joinWith_add {s : List α} {pieces : List (List α)} (h : Cuts pat s pieces)
    (new : List α) : (joinWith new pieces).length + (pieces.length - 1) * pat.length =
      s.length + (pieces.length - 1) * new.length := by
  rcases pieces with - | ⟨x, xs⟩
  · exact absurd rfl h.ne_nil
  · rw [← h.joinWith_eq, length_joinWith, length_joinWith, List.length_cons, Nat.add_sub_cancel]
    ring

/-! ### A pass over the occurrences -/

section Scan

variable {β : Type*}

/-- A pass over a text: `hit` for each occurrence, `keep` for each character
outside them; `skip` characters of an occurrence are being passed over. -/
def scan (pat : List α) (hit : β → β) (keep : α → β → β) (done : β) : Nat → List α → β
  | _, [] => done
  | skip + 1, _ :: s => scan pat hit keep done skip s
  | 0, c :: s =>
    if pat <+: c :: s then hit (scan pat hit keep done (pat.length - 1) s)
    else keep c (scan pat hit keep done 0 s)

variable (hit : β → β) (keep : α → β → β) (done : β)

/-- What is passed over does not count. -/
theorem scan_skip (a s : List α) : scan pat hit keep done a.length (a ++ s) = scan pat hit keep done 0 s := by
  induction a with
  | nil => rfl
  | cons c a ih => exact ih

/-- An occurrence is one step. -/
theorem scan_hit (hpat : pat ≠ []) (s : List α) :
    scan pat hit keep done 0 (pat ++ s) = hit (scan pat hit keep done 0 s) := by
  obtain ⟨c, p, rfl⟩ := List.exists_cons_of_ne_nil hpat
  have hpre : c :: p <+: c :: (p ++ s) := List.prefix_append (c :: p) s
  rw [List.cons_append, scan, if_pos hpre]
  exact congrArg hit (scan_skip hit keep done p s)

/-- What stands before the first occurrence is kept. -/
theorem scan_before {a s : List α} (h : find pat (a ++ s) = some a.length) :
    scan pat hit keep done 0 (a ++ s) = a.foldr keep (scan pat hit keep done 0 s) := by
  induction a with
  | nil => rfl
  | cons c a ih =>
    rw [List.cons_append, scan, if_neg (not_isPrefix_of_find h), ih (find_tail h)]
    rfl

/-- A text without an occurrence is kept. -/
theorem scan_none {s : List α} (h : ¬pat <:+: s) : scan pat hit keep done 0 s = s.foldr keep done := by
  induction s with
  | nil => rfl
  | cons c s ih =>
    rw [scan, if_neg fun hpre => h hpre.isInfix,
      ih fun hin => h (hin.trans (List.suffix_cons c s).isInfix)]
    rfl

/-- The pass, computed from the pieces. -/
theorem Cuts.scan_cut (hpat : pat ≠ []) {a s : List α}
    (h : find pat (a ++ (pat ++ s)) = some a.length) :
    scan pat hit keep done 0 (a ++ (pat ++ s)) =
      a.foldr keep (hit (scan pat hit keep done 0 s)) := by
  rw [scan_before hit keep done h, scan_hit hit keep done hpat]

end Scan

/-- Counting the occurrences. -/
theorem Cuts.scan_count (hpat : pat ≠ []) {s : List α} {pieces : List (List α)}
    (h : Cuts pat s pieces) : scan pat (· + 1) (fun _ n => n) 0 0 s = pieces.length - 1 := by
  have hkeep (a : List α) (n : Nat) : a.foldr (fun _ n => n) n = n := by
    induction a <;> simp_all
  induction h with
  | last hnone => rw [scan_none _ _ _ hnone, hkeep]; rfl
  | cut hfind rest ih =>
    have hpos := List.length_pos_of_ne_nil rest.ne_nil
    rw [scan_cut _ _ _ hpat hfind, hkeep, ih, List.length_cons]
    omega

/-- Replacing the occurrences. -/
theorem Cuts.scan_replace (hpat : pat ≠ []) (new : List α) {s : List α} {pieces : List (List α)}
    (h : Cuts pat s pieces) : scan pat (new ++ ·) List.cons [] 0 s = joinWith new pieces := by
  have hkeep (a b : List α) : a.foldr List.cons b = a ++ b := by simp
  induction h with
  | last hnone => rw [scan_none _ _ _ hnone, hkeep, List.append_nil, joinWith_singleton]
  | @cut a s pieces hfind rest ih =>
    rw [scan_cut _ _ _ hpat hfind, hkeep, ih, ← List.singleton_append,
      joinWith_append new (List.cons_ne_nil a []) rest.ne_nil, joinWith_singleton, List.append_assoc]

end Bytes
