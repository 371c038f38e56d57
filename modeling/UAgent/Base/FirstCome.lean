/-
UAgent/Base/FirstCome.lean

First come, first served: of a list, an element is kept when none of the
elements kept before it stands in its way.  What is turned away stands in
nobody's way, so whether an element is kept depends on which of the earlier
ones are.

In a list that is sorted by a strict order this is a fixed point, and needs
no list any more (**`mem_keep`**): kept is what nothing kept before it stands
in the way of.
-/
import Mathlib.Data.List.Basic

namespace FirstCome

variable {α : Type*} (r : α → α → Prop) [DecidableRel r]

/-- Goes on with a list behind what is kept already. -/
def keepFrom (kept : List α) : List α → List α
  | [] => kept
  | a :: rest => if ∃ b ∈ kept, r b a then keepFrom kept rest else keepFrom (kept ++ [a]) rest

/-- What is kept of a list. -/
def keep (l : List α) : List α := keepFrom r [] l

variable {r} {lt : α → α → Prop} {a : α} {kept l : List α}

theorem subset_keepFrom (h : a ∈ kept) : a ∈ keepFrom r kept l := by
  induction l generalizing kept with
  | nil => exact h
  | cons c rest ih =>
    rw [keepFrom]
    split_ifs
    · exact ih h
    · exact ih (List.mem_append_left _ h)

theorem keepFrom_subset (h : a ∈ keepFrom r kept l) : a ∈ kept ∨ a ∈ l := by
  induction l generalizing kept with
  | nil => exact Or.inl h
  | cons c rest ih =>
    rw [keepFrom] at h
    split_ifs at h
    · exact (ih h).imp_right (List.mem_cons_of_mem c)
    · rcases ih h with hkept | hrest
      · rw [List.mem_append, List.mem_singleton] at hkept
        refine hkept.imp_right ?_
        rintro rfl
        exact List.mem_cons_self
      · exact Or.inr (List.mem_cons_of_mem c hrest)

/-- What comes behind what is kept already is kept when nothing kept before it is
in its way. -/
theorem mem_keepFrom (hasymm : ∀ x y, lt x y → ¬lt y x) (hsorted : (kept ++ l).Pairwise lt)
    (ha : a ∈ l) :
    a ∈ keepFrom r kept l ↔ ∀ b ∈ keepFrom r kept l, lt b a → ¬r b a := by
  induction l generalizing kept with
  | nil => exact absurd ha List.not_mem_nil
  | cons c rest ih =>
    obtain ⟨-, hcons, hcross⟩ := List.pairwise_append.mp hsorted
    obtain ⟨hc, hrest⟩ := List.pairwise_cons.mp hcons
    rw [keepFrom]
    split_ifs with hway
    · have hsorted' : (kept ++ rest).Pairwise lt := List.pairwise_append.mpr
        ⟨(List.pairwise_append.mp hsorted).1, hrest,
          fun x hx y hy => hcross x hx y (List.mem_cons_of_mem c hy)⟩
      rcases List.mem_cons.mp ha with rfl | ha
      · -- the element is turned away, and what is in its way is kept
        obtain ⟨b, hb, hr⟩ := hway
        have hlt := hcross b hb a List.mem_cons_self
        refine ⟨fun hmem => ?_, fun h => absurd hr (h b (subset_keepFrom hb) hlt)⟩
        rcases keepFrom_subset hmem with hmem | hmem
        · have := hcross a hmem a List.mem_cons_self
          exact absurd this (hasymm a a this)
        · exact absurd (hc a hmem) (hasymm a a (hc a hmem))
      · exact ih hsorted' ha
    · have hsorted' : (kept ++ [c] ++ rest).Pairwise lt := by
        rwa [List.append_assoc, List.singleton_append]
      rcases List.mem_cons.mp ha with rfl | ha
      · refine ⟨fun _ b hb hlt hr => ?_, fun _ => subset_keepFrom (by simp)⟩
        rcases keepFrom_subset hb with hb | hb
        · rcases List.mem_append.mp hb with hb | hb
          · exact hway ⟨b, hb, hr⟩
          · rw [List.mem_singleton.mp hb] at hlt
            exact hasymm a a hlt hlt
        · exact hasymm a b (hc b hb) hlt
      · exact ih hsorted' ha

/-- **What is kept**: the elements nothing kept before them is in the way of. -/
theorem mem_keep (hasymm : ∀ x y, lt x y → ¬lt y x) (hsorted : l.Pairwise lt) :
    a ∈ keep r l ↔ a ∈ l ∧ ∀ b ∈ keep r l, lt b a → ¬r b a := by
  have hsorted' : ([] ++ l).Pairwise lt := hsorted
  constructor
  · intro h
    have ha : a ∈ l := (keepFrom_subset h).resolve_left List.not_mem_nil
    exact ⟨ha, (mem_keepFrom hasymm hsorted' ha).mp h⟩
  · rintro ⟨ha, h⟩
    exact (mem_keepFrom hasymm hsorted' ha).mpr h

end FirstCome
