/-
UAgent/Base/EarlyVerdict.lean

A question about a whole text that a beginning of it may settle already.  What
makes an early answer safe is one law: once given, it stands however the text
goes on.  `Watch` asks the question of a text that comes in pieces and keeps
the first answer it gets; it ends with the answer for the whole, wherever the
text was cut (`UpToDate.addAll`, `UpToDate.close_eq`).
-/
import Mathlib.Data.List.Basic

/-- The answer for a beginning, when it settles the question, and the answer
for the whole. -/
structure EarlyVerdict (α ν : Type*) where
  early : List α → Option ν
  final : List α → ν
  early_append {xs : List α} {v : ν} (ys : List α) : early xs = some v → early (xs ++ ys) = some v
  final_of_early {xs : List α} {v : ν} : early xs = some v → final xs = v

namespace EarlyVerdict

variable {α ν : Type*} (c : EarlyVerdict α ν)

/-- A text that is coming in, and the first answer about it. -/
structure Watch (α ν : Type*) where
  seen : List α
  verdict : Option ν

namespace Watch

def start : Watch α ν := ⟨[], c.early []⟩

/-- A piece comes in; the question is asked again unless it was answered. -/
def add (w : Watch α ν) (chunk : List α) : Watch α ν where
  seen := w.seen ++ chunk
  verdict := w.verdict.or (c.early (w.seen ++ chunk))

/-- The text ends. -/
def close (w : Watch α ν) : ν := w.verdict.getD (c.final w.seen)

/-- What was answered is what would be answered now. -/
def UpToDate (w : Watch α ν) : Prop := w.verdict = c.early w.seen

theorem upToDate_start : (start c).UpToDate c := rfl

theorem UpToDate.add {w : Watch α ν} (h : w.UpToDate c) (chunk : List α) : (w.add c chunk).UpToDate c := by
  show w.verdict.or (c.early (w.seen ++ chunk)) = c.early (w.seen ++ chunk)
  cases hw : w.verdict with
  | none => rfl
  | some v => exact (c.early_append chunk (h.symm.trans hw)).symm

theorem UpToDate.addAll {w : Watch α ν} (h : w.UpToDate c) (chunks : List (List α)) :
    (chunks.foldl (Watch.add c) w).UpToDate c ∧
      (chunks.foldl (Watch.add c) w).seen = w.seen ++ chunks.flatten := by
  induction chunks generalizing w with
  | nil => exact ⟨h, by simp⟩
  | cons chunk chunks ih =>
    obtain ⟨hnow, hseen⟩ := ih (h.add c chunk)
    exact ⟨hnow, by rw [List.foldl_cons, hseen]; simp [Watch.add]⟩

/-- Nothing new, nothing learnt. -/
theorem UpToDate.add_nil {w : Watch α ν} (h : w.UpToDate c) : w.add c [] = w := by
  have hnow := h.add c []
  obtain ⟨seen, verdict⟩ := w
  rw [Watch.add, List.append_nil] at hnow ⊢
  exact congrArg (Watch.mk seen) (hnow.trans h.symm)

theorem UpToDate.close_eq {w : Watch α ν} (h : w.UpToDate c) : w.close c = c.final w.seen := by
  unfold Watch.close
  cases hw : w.verdict with
  | none => rfl
  | some v => exact (c.final_of_early (h.symm.trans hw)).symm

end Watch

end EarlyVerdict
