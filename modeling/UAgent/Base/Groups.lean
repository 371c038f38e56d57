/-
UAgent/Base/Groups.lean

Items in groups that carry a key: new items join the newest group when it is
of their key, and open the next one otherwise.  No item is lost or moved
(`spread_put`), and neighbouring groups have different keys (`Alternate.put`).
-/
import Mathlib.Data.List.Chain

namespace Groups

variable {κ α : Type*}

/-- Items put behind all groups; no items change nothing. -/
def put [DecidableEq κ] (groups : List (κ × List α)) (key : κ) (items : List α) :
    List (κ × List α) :=
  if items.isEmpty then groups
  else
    match groups.getLast? with
    | some newest =>
      if newest.1 = key then groups.dropLast ++ [(key, newest.2 ++ items)]
      else groups ++ [(key, items)]
    | none => [(key, items)]

/-- The items in order, each with the key of its group. -/
def spread (groups : List (κ × List α)) : List (κ × α) :=
  groups.flatMap fun group => group.2.map fun item => (group.1, item)

/-- No group is empty, and neighbouring groups have different keys. -/
structure Alternate (groups : List (κ × List α)) : Prop where
  keys : (groups.map Prod.fst).IsChain (· ≠ ·)
  items : ∀ group ∈ groups, group.2 ≠ []

theorem Alternate.nil : Alternate ([] : List (κ × List α)) where
  keys := List.isChain_nil
  items _ h := absurd h List.not_mem_nil

section Spread

variable {groups : List (κ × List α)}

@[simp] theorem spread_nil : spread ([] : List (κ × List α)) = [] := rfl

theorem spread_concat (key : κ) (items : List α) :
    spread (groups ++ [(key, items)]) = spread groups ++ items.map fun item => (key, item) := by
  rw [spread, List.flatMap_append, List.flatMap_singleton]
  rfl

/-- The first group is of the first item's key. -/
theorem Alternate.head_key (h : Alternate groups) :
    (groups.map Prod.fst).head? = (spread groups).head?.map Prod.fst := by
  cases groups with
  | nil => rfl
  | cons group groups =>
    obtain ⟨item, items, hitems⟩ :=
      List.exists_cons_of_ne_nil (h.items group List.mem_cons_self)
    simp [spread, hitems]

end Spread

section Put

variable [DecidableEq κ] {groups : List (κ × List α)}

@[simp] theorem put_nil (groups : List (κ × List α)) (key : κ) : put groups key [] = groups := rfl

/-- The groups with the items put behind them: joined to the newest, or in a
group of their own. -/
theorem put_cases (groups : List (κ × List α)) (key : κ) {items : List α} (hitems : items ≠ []) :
    (∃ before held, groups = before ++ [(key, held)] ∧
        put groups key items = before ++ [(key, held ++ items)]) ∨
      (∀ newest ∈ groups.getLast?, newest.1 ≠ key) ∧
        put groups key items = groups ++ [(key, items)] := by
  rw [put, if_neg (by simpa using hitems)]
  rcases List.eq_nil_or_concat' groups with rfl | ⟨before, newest, rfl⟩
  · exact .inr ⟨by simp, rfl⟩
  · simp only [List.getLast?_concat, List.dropLast_concat]
    by_cases hkey : newest.1 = key
    · refine .inl ⟨before, newest.2, by rw [← hkey], if_pos hkey⟩
    · refine .inr ⟨?_, if_neg hkey⟩
      rintro other ⟨⟩
      exact hkey

/-- **No item is lost or moved.** -/
theorem spread_put (groups : List (κ × List α)) (key : κ) (items : List α) :
    spread (put groups key items) = spread groups ++ items.map fun item => (key, item) := by
  by_cases hitems : items = []
  · rw [hitems, put_nil, List.map_nil, List.append_nil]
  · rcases put_cases groups key hitems with ⟨before, held, rfl, hput⟩ | ⟨-, hput⟩
    · rw [hput, spread_concat, spread_concat, List.map_append, List.append_assoc]
    · rw [hput, spread_concat]

/-- **Neighbouring groups keep different keys.** -/
theorem Alternate.put (h : Alternate groups) (key : κ) (items : List α) :
    Alternate (put groups key items) := by
  by_cases hitems : items = []
  · rw [hitems, put_nil]
    exact h
  · rcases put_cases groups key hitems with ⟨before, held, rfl, hput⟩ | ⟨hkey, hput⟩
    · rw [hput]
      constructor
      · simpa using h.keys
      · intro group hgroup
        rcases List.mem_append.mp hgroup with hbefore | hlast
        · exact h.items group (List.mem_append_left _ hbefore)
        · rw [List.mem_singleton.mp hlast]
          exact List.append_ne_nil_of_right_ne_nil _ hitems
    · rw [hput]
      constructor
      · rw [List.map_append, List.isChain_append]
        refine ⟨h.keys, List.isChain_singleton _, ?_⟩
        intro newest hnewest next hnext
        rw [List.getLast?_map] at hnewest
        obtain ⟨group, hgroup, rfl⟩ := Option.map_eq_some_iff.mp hnewest
        obtain rfl : key = next := by simpa using hnext
        exact hkey group hgroup
      · intro group hgroup
        rcases List.mem_append.mp hgroup with hbefore | hlast
        · exact h.items group hbefore
        · rw [List.mem_singleton.mp hlast]
          exact hitems

/-- All that is put, one after another. -/
theorem spread_foldl_put (groups turns : List (κ × List α)) :
    spread (turns.foldl (fun groups turn => Groups.put groups turn.1 turn.2) groups) =
      spread groups ++ spread turns := by
  induction turns generalizing groups with
  | nil => simp
  | cons turn turns ih =>
    rw [List.foldl_cons, ih, spread_put, List.append_assoc]
    rfl

theorem Alternate.foldl_put (h : Alternate groups) (turns : List (κ × List α)) :
    Alternate (turns.foldl (fun groups turn => Groups.put groups turn.1 turn.2) groups) := by
  induction turns generalizing groups with
  | nil => exact h
  | cons turn turns ih => exact ih (h.put turn.1 turn.2)

end Put

end Groups
