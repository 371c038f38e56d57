/-
UAgent/Base/Overwrites.lean

A list of writes to the places of a store, one after another.  Of all writes to
one place only the last stands, so the store is what it was just when every
standing write wrote what was there (`foldl_overwrite_eq_self_iff`).
-/
import Mathlib.Logic.Function.Basic
import Mathlib.Data.List.Basic

namespace Overwrites

variable {κ β : Type*} [DecidableEq κ]

def overwrite (store : κ → β) (w : κ × β) : κ → β := Function.update store w.1 w.2

/-- The writes that no later write to the same place covers. -/
def standing : List (κ × β) → List (κ × β)
  | [] => []
  | w :: ws => if w.1 ∈ ws.map Prod.fst then standing ws else w :: standing ws

variable {store : κ → β} {ws : List (κ × β)}

/-- A place that is not written keeps what it holds. -/
theorem foldl_overwrite_of_notMem {k : κ} (h : k ∉ ws.map Prod.fst) :
    ws.foldl overwrite store k = store k := by
  induction ws generalizing store with
  | nil => rfl
  | cons w ws ih =>
    rw [List.map_cons, List.mem_cons, not_or] at h
    rw [List.foldl_cons, ih h.2]
    exact Function.update_of_ne h.1 w.2 store

/-- A standing write is what its place holds in the end. -/
theorem foldl_overwrite_of_standing {w : κ × β} (h : w ∈ standing ws) :
    ws.foldl overwrite store w.1 = w.2 := by
  induction ws generalizing store with
  | nil => cases h
  | cons w' ws ih =>
    rw [standing] at h
    rw [List.foldl_cons]
    split_ifs at h with hlater
    · exact ih h
    · rcases List.mem_cons.mp h with rfl | h
      · rw [foldl_overwrite_of_notMem hlater]
        exact Function.update_self w.1 w.2 store
      · exact ih h

/-- Which writes stand is a matter of their places. -/
theorem standing_map {γ : Type*} (f : β → γ) (ws : List (κ × β)) :
    standing (ws.map fun w => (w.1, f w.2)) = (standing ws).map fun w => (w.1, f w.2) := by
  induction ws with
  | nil => rfl
  | cons w ws ih =>
    have hplaces : (ws.map fun w => (w.1, f w.2)).map Prod.fst = ws.map Prod.fst := by simp
    rw [List.map_cons, standing, standing, hplaces, ih]
    split_ifs <;> rfl

theorem mem_of_standing {w : κ × β} (h : w ∈ standing ws) : w ∈ ws := by
  induction ws with
  | nil => cases h
  | cons w' ws ih =>
    rw [standing] at h
    split_ifs at h
    · exact List.mem_cons_of_mem w' (ih h)
    · exact (List.mem_cons.mp h).elim (fun heq => heq ▸ List.mem_cons_self)
        fun h => List.mem_cons_of_mem w' (ih h)

/-- A place that is written has a standing write. -/
theorem exists_standing {k : κ} (h : k ∈ ws.map Prod.fst) : ∃ w ∈ standing ws, w.1 = k := by
  induction ws with
  | nil => cases h
  | cons w ws ih =>
    rw [standing]
    by_cases hlater : k ∈ ws.map Prod.fst
    · obtain ⟨w', hw', rfl⟩ := ih hlater
      refine ⟨w', ?_, rfl⟩
      split_ifs
      · exact hw'
      · exact List.mem_cons_of_mem w hw'
    · obtain rfl : k = w.1 := (List.mem_cons.mp h).resolve_right hlater
      rw [if_neg hlater]
      exact ⟨w, List.mem_cons_self, rfl⟩

theorem foldl_overwrite_eq_self_iff :
    ws.foldl overwrite store = store ↔ ∀ w ∈ standing ws, store w.1 = w.2 := by
  constructor
  · intro h w hw
    have hstands : ws.foldl overwrite store w.1 = w.2 := foldl_overwrite_of_standing hw
    rwa [h] at hstands
  · intro h
    funext k
    by_cases hk : k ∈ ws.map Prod.fst
    · obtain ⟨w, hw, rfl⟩ := exists_standing hk
      rw [foldl_overwrite_of_standing hw, h w hw]
    · exact foldl_overwrite_of_notMem hk

end Overwrites
