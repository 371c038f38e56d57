/-
UAgent/Base/Window.lean

The newest part of a list that fits, cut where a mark stands: the oldest
elements go until the rest fits (`excess`), and when any went, those up to the
next marked one go as well (`surplus`).

Main result: cutting what is left of a list once it has grown is cutting the
whole list once it has grown so (`surplus_grown`).
-/
import Mathlib.Data.List.Infix
import Mathlib.Data.List.TakeDrop

namespace Window

variable {α : Type*} (fits : List α → Prop) [DecidablePred fits] (mark : α → Bool)

/-- How many of the oldest elements go before the rest fits. -/
def excess : List α → Nat
  | [] => 0
  | x :: xs => if fits (x :: xs) then 0 else 1 + excess xs

/-- How many elements stand before the first marked one; none if no mark is. -/
def toMark (xs : List α) : Nat := (xs.findIdx? mark).getD 0

/-- How many of the oldest elements go. -/
def surplus (xs : List α) : Nat :=
  if excess fits xs = 0 then 0 else excess fits xs + toMark mark (xs.drop (excess fits xs))

variable {fits mark} {xs ys : List α} {x : α}

/-! ### The excess -/

theorem excess_le_length : excess fits xs ≤ xs.length := by
  induction xs with
  | nil => exact Nat.le_refl 0
  | cons x xs ih =>
    rw [excess, List.length_cons]
    split_ifs <;> omega

/-- What is left after the excess is the longest end that fits. -/
theorem fits_drop_iff (hnil : fits []) (hsub : ∀ xs ys, ys <:+ xs → fits xs → fits ys)
    (xs : List α) (d : Nat) : fits (xs.drop d) ↔ excess fits xs ≤ d := by
  induction xs generalizing d with
  | nil => simpa [excess] using hnil
  | cons x xs ih =>
    rw [excess]
    by_cases hfits : fits (x :: xs)
    · rw [if_pos hfits]
      exact ⟨fun _ => Nat.zero_le d, fun _ => hsub _ _ (List.drop_suffix d _) hfits⟩
    · rw [if_neg hfits]
      cases d with
      | zero => simp [hfits]
      | succ d =>
        rw [List.drop_succ_cons, ih]
        omega

/-! ### Marks -/

theorem toMark_of_unmarked (h : ∀ x ∈ xs, mark x = false) : toMark mark xs = 0 := by
  rw [toMark, List.findIdx?_eq_none_iff.mpr h]
  rfl

/-- The first mark stands behind what is not marked. -/
theorem toMark_append (hxs : ∀ x ∈ xs, mark x = false) (hy : ∃ y ∈ ys.head?, mark y = true) :
    toMark mark (xs ++ ys) = xs.length := by
  obtain ⟨y, hhead, hmark⟩ := hy
  obtain ⟨ys, rfl⟩ : ∃ tail, ys = y :: tail := ⟨_, List.eq_cons_of_mem_head? hhead⟩
  rw [toMark, List.findIdx?_append, List.findIdx?_eq_none_iff.mpr hxs]
  simp [List.findIdx?_cons, hmark]

/-- The elements up to the first mark are not marked, and there the list goes
on with a mark, if there is one. -/
theorem toMark_spec (xs : List α) :
    (∀ x ∈ xs.take (toMark mark xs), mark x = false) ∧
      ((∃ y ∈ xs, mark y = true) → ∃ y ∈ (xs.drop (toMark mark xs)).head?, mark y = true) := by
  cases hfind : xs.findIdx? mark with
  | none =>
    have hnone := List.findIdx?_eq_none_iff.mp hfind
    rw [toMark_of_unmarked hnone]
    refine ⟨fun x hx => absurd hx (by simp), fun ⟨y, hy, hmark⟩ => ?_⟩
    rw [hnone y hy] at hmark
    cases hmark
  | some i =>
    obtain ⟨hlt, hmark, hbefore⟩ := List.findIdx?_eq_some_iff_getElem.mp hfind
    rw [toMark, hfind, Option.getD_some]
    constructor
    · intro x hx
      obtain ⟨j, hj, rfl⟩ := List.mem_iff_getElem.mp hx
      rw [List.getElem_take]
      simpa using hbefore j (by simp at hj; omega)
    · intro _
      refine ⟨xs.get ⟨i, hlt⟩, ?_, hmark⟩
      rw [List.head?_drop]
      simp [hlt]

/-! ### The surplus -/

section Surplus

variable (hnil : fits []) (hsub : ∀ xs ys, ys <:+ xs → fits xs → fits ys)

theorem excess_le_surplus : excess fits xs ≤ surplus fits mark xs := by
  rw [surplus]
  split_ifs <;> omega

theorem surplus_of_excess (h : excess fits xs ≠ 0) : surplus fits mark xs =
    excess fits xs + toMark mark (xs.drop (excess fits xs)) := if_neg h

theorem excess_ne_zero (h : surplus fits mark xs ≠ 0) : excess fits xs ≠ 0 := by
  intro hzero
  exact h (if_pos hzero)

theorem surplus_le_length : surplus fits mark xs ≤ xs.length := by
  have hmark : toMark mark (xs.drop (excess fits xs)) ≤ (xs.drop (excess fits xs)).length := by
    rw [toMark]
    cases hfind : (xs.drop (excess fits xs)).findIdx? mark with
    | none => exact Nat.zero_le _
    | some i => exact (List.findIdx?_eq_some_iff_getElem.mp hfind).1.le
  have hexcess : excess fits xs ≤ xs.length := excess_le_length
  rw [List.length_drop] at hmark
  rw [surplus]
  split_ifs <;> omega

include hnil hsub in
/-- What is left fits. -/
theorem fits_drop_surplus (xs : List α) : fits (xs.drop (surplus fits mark xs)) :=
  (fits_drop_iff hnil hsub xs _).mpr excess_le_surplus

/-- What is left starts with a mark when anything went and a mark is left. -/
theorem head_marked (h : surplus fits mark xs ≠ 0)
    (hleft : ∃ y ∈ xs.drop (surplus fits mark xs), mark y = true) :
    ∃ y ∈ (xs.drop (surplus fits mark xs)).head?, mark y = true := by
  rw [surplus_of_excess (excess_ne_zero h), ← List.drop_drop] at hleft ⊢
  obtain ⟨y, hy, hmark⟩ := hleft
  exact (toMark_spec _).2 ⟨y, List.mem_of_mem_drop hy, hmark⟩

include hnil hsub in
/-- With some of them gone, as many fewer are to go. -/
theorem excess_drop (xs : List α) (d : Nat) : excess fits (xs.drop d) = excess fits xs - d := by
  have hle : ∀ c, excess fits (xs.drop d) ≤ c ↔ excess fits xs - d ≤ c := by
    intro c
    rw [← fits_drop_iff hnil hsub, List.drop_drop, fits_drop_iff hnil hsub]
    omega
  exact le_antisymm ((hle _).mpr le_rfl) ((hle _).mp le_rfl)

/-- What went up to the mark was not marked. -/
theorem unmarked_take {d : Nat} (hd : excess fits xs ≤ d) :
    ∀ x ∈ (xs.drop d).take (surplus fits mark xs - d), mark x = false := by
  intro x hx
  by_cases hzero : excess fits xs = 0
  · rw [surplus, if_pos hzero, Nat.zero_sub, List.take_zero] at hx
    cases hx
  · refine (toMark_spec (xs.drop (excess fits xs))).1 x ?_
    rw [surplus_of_excess hzero, List.mem_iff_getElem?] at hx
    obtain ⟨i, hi⟩ := hx
    rw [List.getElem?_take, List.getElem?_drop] at hi
    split_ifs at hi with hlt
    refine List.mem_iff_getElem?.mpr ⟨d - excess fits xs + i, ?_⟩
    rw [List.getElem?_take, List.getElem?_drop, if_pos (by omega), ← hi]
    congr 1
    omega

/-! ### Lists that grow -/

variable {went left grown : List α}

include hnil hsub in
/-- A list that fits no sooner has no fewer to go. -/
theorem excess_le_of_fits (hwent : excess fits (went ++ left) ≤ went.length)
    (hfits : ∀ ys, ys <:+ went → fits (ys ++ grown) → fits (ys ++ left)) :
    excess fits (went ++ left) ≤ excess fits (went ++ grown) := by
  by_cases hle : excess fits (went ++ grown) ≤ went.length
  · have hnow := (fits_drop_iff hnil hsub (went ++ grown) _).mpr le_rfl
    rw [List.drop_append_of_le_length hle] at hnow
    have hbefore := hfits _ (List.drop_suffix _ went) hnow
    rw [← List.drop_append_of_le_length hle] at hbefore
    exact (fits_drop_iff hnil hsub (went ++ left) _).mp hbefore
  · omega

include hnil hsub in
/-- **One after another or all at once.**  When all of `went` was to go and the
rest grows, as much goes of the rest as goes of the whole list grown so: the
mark at which the rest started must be there still, and none may come where
there was none. -/
theorem surplus_grown (hsome : went ≠ [])
    (hwent : surplus fits mark (went ++ left) = went.length)
    (hgrown : excess fits (went ++ left) ≤ excess fits (went ++ grown))
    (hhead : (∃ y ∈ left.head?, mark y = true) → ∃ y ∈ grown.head?, mark y = true)
    (hnone : (∀ y ∈ left, mark y = false) → ∀ y ∈ grown, mark y = false) :
    surplus fits mark (went ++ grown) = went.length + surplus fits mark grown := by
  have hpos : 0 < went.length := List.length_pos_iff.mpr hsome
  have hcut : surplus fits mark (went ++ left) ≠ 0 := by omega
  have hbefore : excess fits (went ++ left) ≠ 0 := excess_ne_zero hcut
  have hexcess : excess fits (went ++ left) ≤ went.length := hwent ▸ excess_le_surplus
  have hnow : surplus fits mark (went ++ grown) = _ := surplus_of_excess (by omega)
  have hrest : excess fits grown = excess fits (went ++ grown) - went.length := by
    rw [← excess_drop hnil hsub, List.drop_left]
  by_cases hle : excess fits (went ++ grown) ≤ went.length
  · have hunmarked : ∀ d, excess fits (went ++ left) ≤ d → d ≤ went.length →
        ∀ y ∈ went.drop d, mark y = false := by
      intro d hd hlength y hy
      refine unmarked_take hd y ?_
      rw [hwent, List.drop_append_of_le_length hlength,
        List.take_append_of_le_length (by rw [List.length_drop]), ← List.length_drop,
        List.take_length]
      exact hy
    have hzero : surplus fits mark grown = 0 := if_pos (by omega)
    rw [hzero, hnow, List.drop_append_of_le_length hle]
    by_cases hleft : ∃ y ∈ left, mark y = true
    · -- the rest starts at a mark, and the first mark behind the excess is there
      have hstart := head_marked hcut
      rw [hwent, List.drop_left] at hstart
      rw [toMark_append (hunmarked _ hgrown hle) (hhead (hstart hleft)), List.length_drop]
      omega
    · -- no mark was behind the excess, so no more than the excess went
      have hnotLeft : ∀ y ∈ left, mark y = false :=
        fun y hy => Bool.eq_false_iff.mpr fun hmarked => hleft ⟨y, hy, hmarked⟩
      have hexact : surplus fits mark (went ++ left) = excess fits (went ++ left) := by
        rw [surplus_of_excess hbefore, List.drop_append_of_le_length hexcess, toMark_of_unmarked,
          Nat.add_zero]
        intro y hy
        exact (List.mem_append.mp hy).elim (hunmarked _ le_rfl hexcess y) (hnotLeft y)
      have hall : excess fits (went ++ grown) = went.length := by omega
      rw [hall, List.drop_length, List.nil_append, toMark_of_unmarked (hnone hnotLeft)]
  · have hmore : surplus fits mark grown = _ := surplus_of_excess (by omega)
    have hdrop : (went ++ grown).drop (excess fits (went ++ grown)) =
        grown.drop (excess fits grown) := by
      rw [hrest, List.drop_append, List.drop_eq_nil_of_le (by omega), List.nil_append]
    rw [hmore, hnow, hdrop, hrest]
    omega

end Surplus

end Window
