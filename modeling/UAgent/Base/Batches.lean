/-
UAgent/Base/Batches.lean

A list in batches: `Batched R xs ys` when `xs` is cut into non-empty groups of
neighbours and `ys` has one element for each group, related to it by `R`.

What is computed by going over the list, an element at a time, comes out the
same for the batches when a batch counts as much as its group (`foldl`).
-/
import Mathlib.Data.List.Basic

variable {α β : Type*}

/-- `ys` are the elements of `xs` in batches. -/
inductive Batched (R : List α → α → Prop) : List α → List α → Prop
  | nil : Batched R [] []
  | snoc {xs ys group : List α} {y : α} :
      Batched R xs ys → group ≠ [] → R group y → Batched R (xs ++ group) (ys ++ [y])

namespace Batched

variable {R : List α → α → Prop} {xs ys : List α}

/-- An element that is a batch of its own. -/
theorem single (h : Batched R xs ys) {x y : α} (hR : R [x] y) :
    Batched R (xs ++ [x]) (ys ++ [y]) :=
  h.snoc (List.cons_ne_nil x []) hR

/-- An element that joins the last batch. -/
theorem extend {y y' x : α} (h : Batched R xs (ys ++ [y]))
    (hR : ∀ group, R group y → R (group ++ [x]) y') : Batched R (xs ++ [x]) (ys ++ [y']) := by
  generalize hbatches : ys ++ [y] = batches at h
  cases h with
  | nil => exact absurd hbatches (by simp)
  | @snoc xs ys' group y₀ hbatched _ hgroup =>
    obtain ⟨rfl, hlast⟩ := List.append_inj' hbatches rfl
    obtain rfl : y = y₀ := (List.cons.inj hlast).1
    rw [List.append_assoc]
    exact hbatched.snoc (by simp) (hR group hgroup)

/-- A batch counts as much as its group. -/
theorem foldl (h : Batched R xs ys) {f : β → α → β}
    (hf : ∀ group y b, R group y → group.foldl f b = f b y) (b : β) :
    xs.foldl f b = ys.foldl f b := by
  induction h with
  | nil => rfl
  | snoc _ _ hR ih => rw [List.foldl_append, List.foldl_append, ih, hf _ _ _ hR]; rfl

/-- What the first element of a group says where the group starts, its batch
says where the batch does. -/
theorem at_prefix (h : Batched R xs ys) {At : List α → α → Prop}
    (hat : ∀ xs ys x group y, Batched R xs ys → R (x :: group) y → At xs x → At ys y)
    (hxs : ∀ before x after, xs = before ++ x :: after → At before x) :
    ∀ before y after, ys = before ++ y :: after → At before y := by
  induction h with
  | nil => exact fun before y after heq => absurd heq.symm (by simp)
  | @snoc xs ys group y hbatched hgroup hR ih =>
    intro before z after heq
    rcases List.eq_nil_or_concat after with rfl | ⟨after, last, rfl⟩
    · obtain ⟨rfl, hlast⟩ := List.append_inj' heq rfl
      obtain rfl : y = z := (List.cons.inj hlast).1
      obtain ⟨x, group, rfl⟩ := List.exists_cons_of_ne_nil hgroup
      exact hat _ _ x group y hbatched hR (hxs xs x group rfl)
    · refine ih (fun before x after hsplit => ?_) before z after ?_
      · refine hxs before x (after ++ group) ?_
        rw [hsplit, List.append_assoc, List.cons_append]
      · rw [List.concat_eq_append, ← List.cons_append, ← List.append_assoc] at heq
        exact (List.append_inj' heq rfl).1

end Batched
