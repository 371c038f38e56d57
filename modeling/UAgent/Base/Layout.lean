/-
UAgent/Base/Layout.lean

Texts joined by a separator, and where each of them lies in the whole: behind
the texts before it, each with a separator after it (`lead`), and in front of
those after it, each with a separator before it (`trail`).
-/
import Mathlib.Data.List.Basic

namespace Layout

variable {α : Type*} {sep : List α} {before after texts : List (List α)} {text : List α}

/-- What stands before a text. -/
def lead (sep : List α) (before : List (List α)) : List α := before.flatMap (· ++ sep)

/-- What stands after it. -/
def trail (sep : List α) (after : List (List α)) : List α := after.flatMap (sep ++ ·)

@[simp] theorem lead_nil : lead sep [] = [] := rfl

@[simp] theorem trail_nil : trail sep [] = [] := rfl

theorem lead_append (texts' : List (List α)) :
    lead sep (texts ++ texts') = lead sep texts ++ lead sep texts' := List.flatMap_append

theorem lead_cons : lead sep (text :: texts) = text ++ sep ++ lead sep texts := rfl

theorem trail_cons : trail sep (text :: texts) = sep ++ text ++ trail sep texts := rfl

theorem intercalate_cons (sep text : List α) (texts : List (List α)) :
    sep.intercalate (text :: texts) = text ++ trail sep texts := by
  induction texts generalizing text with
  | nil => simp [List.intercalate]
  | cons next texts ih =>
    have hsplit : sep.intercalate (text :: next :: texts) =
        text ++ sep ++ sep.intercalate (next :: texts) := by
      simp [List.intercalate]
    rw [hsplit, ih, trail_cons]
    simp

/-- **Where a text lies** in the texts joined. -/
theorem intercalate_split (sep : List α) (before : List (List α)) (text : List α)
    (after : List (List α)) :
    sep.intercalate (before ++ text :: after) = lead sep before ++ text ++ trail sep after := by
  induction before with
  | nil => exact intercalate_cons sep text after
  | cons first before ih =>
    have htrail : trail sep (before ++ text :: after) =
        sep ++ sep.intercalate (before ++ text :: after) := by
      cases before with
      | nil => rw [List.nil_append, trail_cons, intercalate_cons, List.append_assoc]
      | cons next before => rw [List.cons_append, trail_cons, intercalate_cons, List.append_assoc]
    rw [List.cons_append, intercalate_cons, htrail, ih, lead_cons]
    simp

/-- Joined texts and one more. -/
theorem lead_eq (hne : texts ≠ []) : lead sep texts = sep.intercalate texts ++ sep := by
  obtain ⟨before, text, rfl⟩ := List.eq_nil_or_concat' texts |>.resolve_left hne
  rw [lead_append, intercalate_split, lead_cons]
  simp

end Layout
