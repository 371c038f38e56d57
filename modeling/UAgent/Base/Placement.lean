/-
UAgent/Base/Placement.lean

Lists that are searched for an entry and take new entries before the first
one that meets a rule.

A search answers with the list cut at the entry found, so that what replaces,
removes or keeps the entry is written and proved with appends alone.
-/
import Mathlib.Data.List.TakeWhile
import Mathlib.Data.List.TakeDrop
import Mathlib.Data.List.Nodup

namespace List

variable {α : Type*} {p : α → Bool} {a x : α} {l pre post : List α}

/-! ### Searching -/

/-- The list cut at its first entry that meets `p`. -/
def firstMatch (p : α → Bool) : List α → Option (List α × α × List α)
  | [] => none
  | x :: l =>
    if p x then some ([], x, l)
    else (firstMatch p l).map fun cut => (x :: cut.1, cut.2)

theorem firstMatch_eq_none : firstMatch p l = none ↔ ∀ x ∈ l, p x = false := by
  induction l with
  | nil => simp [firstMatch]
  | cons y l ih =>
    rw [firstMatch]
    split_ifs with hy
    · simp [hy]
    · simp [hy, ih]

theorem firstMatch_eq_some :
    firstMatch p l = some (pre, x, post) ↔
      l = pre ++ x :: post ∧ p x = true ∧ ∀ y ∈ pre, p y = false := by
  induction l generalizing pre with
  | nil => simp [firstMatch]
  | cons y l ih =>
    rw [firstMatch]
    split_ifs with hy
    · constructor
      · intro h
        obtain ⟨rfl, rfl, rfl⟩ : [] = pre ∧ y = x ∧ l = post := by simpa using h
        exact ⟨rfl, hy, by simp⟩
      · rintro ⟨heq, hx, hpre⟩
        rcases pre with - | ⟨z, pre⟩
        · obtain ⟨rfl, rfl⟩ := List.cons.inj heq
          rfl
        · obtain ⟨rfl, -⟩ := List.cons.inj heq
          rw [hpre y List.mem_cons_self] at hy
          cases hy
    · rw [Option.map_eq_some_iff]
      constructor
      · rintro ⟨⟨pre', x', post'⟩, hcut, h⟩
        obtain ⟨rfl, rfl, rfl⟩ : y :: pre' = pre ∧ x' = x ∧ post' = post := by simpa using h
        obtain ⟨rfl, hx, hpre⟩ := ih.mp hcut
        refine ⟨rfl, hx, fun z hz => ?_⟩
        rcases List.mem_cons.mp hz with rfl | hz
        · simpa using hy
        · exact hpre z hz
      · rintro ⟨heq, hx, hpre⟩
        rcases pre with - | ⟨z, pre⟩
        · obtain ⟨rfl, -⟩ := List.cons.inj heq
          exact absurd hx hy
        · obtain ⟨rfl, rfl⟩ := List.cons.inj heq
          exact ⟨(pre, x, post), ih.mpr ⟨rfl, hx, fun z hz => hpre z (List.mem_cons_of_mem _ hz)⟩,
            rfl⟩

/-- What does not meet `p` may stand before. -/
theorem firstMatch_append (hpre : ∀ x ∈ pre, p x = false) :
    firstMatch p (pre ++ l) = (firstMatch p l).map fun cut => (pre ++ cut.1, cut.2) := by
  cases hfirst : firstMatch p l with
  | none =>
    refine firstMatch_eq_none.mpr fun x hx => ?_
    exact (List.mem_append.mp hx).elim (hpre x) (firstMatch_eq_none.mp hfirst x)
  | some cut =>
    obtain ⟨rfl, hx, hbefore⟩ := firstMatch_eq_some.mp hfirst
    refine firstMatch_eq_some.mpr ⟨by simp, hx, fun y hy => ?_⟩
    exact (List.mem_append.mp hy).elim (hpre y) (hbefore y)

/-! ### Placing -/

/-- `a` goes before the first entry that meets `p`, else last. -/
def placeBefore (p : α → Bool) (a : α) (l : List α) : List α :=
  l.takeWhile (fun x => !p x) ++ a :: l.dropWhile (fun x => !p x)

/-- An entry goes behind what does not meet `p`. -/
theorem placeBefore_append_left (hpre : ∀ x ∈ pre, p x = false) :
    placeBefore p a (pre ++ l) = pre ++ placeBefore p a l := by
  have hnot : ∀ x ∈ pre, (!p x) = true := fun x hx => by simp [hpre x hx]
  rw [placeBefore, List.takeWhile_append_of_pos hnot, List.dropWhile_append_of_pos hnot,
    List.append_assoc, placeBefore]

end List
