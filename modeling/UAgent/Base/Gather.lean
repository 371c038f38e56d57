/-
UAgent/Base/Gather.lean

Items gathered by key: each one is put to what its key holds, wherever it
comes among the others.  What a key holds in the end is what its own items
make, in their order (`lookup_gather`); so the order of items of different
keys does not matter, and the map is known once the items of each key are
(`gather_eq`).
-/
import UAgent.Base.Json
import Mathlib.Data.List.Sort

namespace Assoc

section Ext

variable {κ β : Type*} [DecidableEq κ] [LT κ] [DecidableLT κ] [IsStrictTotalOrder κ (· < ·)]

theorem mem_iff_lookup {m : List (κ × β)} (h : Sorted m) {k : κ} {v : β} :
    (k, v) ∈ m ↔ lookup k m = some v :=
  ⟨fun hm => lookup_of_mem h hm, mem_of_lookup⟩

/-- A key holds one value. -/
theorem eq_of_mem {m : List (κ × β)} (h : Sorted m) {k : κ} {v w : β} (hv : (k, v) ∈ m)
    (hw : (k, w) ∈ m) : v = w :=
  Option.some.inj ((lookup_of_mem h hv).symm.trans (lookup_of_mem h hw))

/-- Maps that hold the same are the same. -/
theorem eq_of_lookup {m m' : List (κ × β)} (hm : Sorted m) (hm' : Sorted m')
    (h : ∀ k, lookup k m = lookup k m') : m = m' := by
  have hmem (e : κ × β) : e ∈ m ↔ e ∈ m' := by
    rw [mem_iff_lookup hm, mem_iff_lookup hm', h]
  have hnodup {l : List (κ × β)} (hl : Sorted l) : l.Nodup :=
    List.Nodup.of_map Prod.fst (List.Pairwise.imp ne_of_irrefl hl)
  have hperm : m.Perm m' := (List.perm_ext_iff_of_nodup (hnodup hm) (hnodup hm')).mpr hmem
  refine hperm.eq_of_pairwise (fun a b _ _ hab hba => ?_) (List.pairwise_map.mp hm)
    (List.pairwise_map.mp hm')
  exact absurd (IsTrans.trans _ _ _ hab hba) (irrefl_of (· < ·) a.1)

/-- Maps that hold values for the same keys go side by side. -/
theorem forall₂_of_lookup {γ : Type*} {R : β → γ → Prop} {m : List (κ × β)} {m' : List (κ × γ)}
    (hm : Sorted m) (hm' : Sorted m') (h : ∀ k, Option.Rel R (lookup k m) (lookup k m')) :
    List.Forall₂ (fun a b => a.1 = b.1 ∧ R a.2 b.2) m m' := by
  have hkey (k : κ) : k ∈ m.map Prod.fst ↔ k ∈ m'.map Prod.fst := by
    rw [← not_iff_not, ← lookup_eq_none, ← lookup_eq_none]
    have hk := h k
    generalize lookup k m = held at hk
    generalize lookup k m' = held' at hk
    cases hk <;> simp
  have hkeys : m.map Prod.fst = m'.map Prod.fst := by
    have hnodup {l : List κ} (hl : l.Pairwise (· < ·)) : l.Nodup := hl.imp ne_of_irrefl
    have hperm := (List.perm_ext_iff_of_nodup (hnodup hm) (hnodup hm')).mpr hkey
    refine hperm.eq_of_pairwise (fun a b _ _ hab hba => ?_) hm hm'
    exact absurd (IsTrans.trans _ _ _ hab hba) (irrefl_of (· < ·) a)
  rw [List.forall₂_iff_get]
  have hlen : m.length = m'.length := by simpa using congrArg List.length hkeys
  refine ⟨hlen, fun i hi hi' => ?_⟩
  have hfst : (m.get ⟨i, hi⟩).1 = (m'.get ⟨i, hi'⟩).1 := by
    have hget := congrArg (fun l => l[i]?) hkeys
    simpa [hi, hi'] using hget
  refine ⟨hfst, ?_⟩
  have hk := h (m.get ⟨i, hi⟩).1
  rw [lookup_of_mem hm (List.get_mem m ⟨i, hi⟩), hfst,
    lookup_of_mem hm' (List.get_mem m' ⟨i, hi'⟩)] at hk
  cases hk with
  | some hrel => exact hrel

end Ext

section Gather

variable {κ β ι : Type*} [DecidableEq κ] [LT κ] [DecidableLT κ]

/-- Items put to what their keys hold, one after another. -/
def gather (put : Option β → ι → β) (m : List (κ × β)) (items : List (κ × ι)) : List (κ × β) :=
  items.foldl (fun m item => insert item.1 (put (lookup item.1 m) item.2) m) m

variable (put : Option β → ι → β)

/-- What the items of one key make of what it held. -/
def gathered (held : Option β) (items : List ι) : Option β :=
  items.foldl (fun held item => some (put held item)) held

/-- The items of one key. -/
def itemsOf (k : κ) (items : List (κ × ι)) : List ι :=
  (items.filter fun item => item.1 = k).map Prod.snd

/-- **A key holds what its own items make.** -/
theorem lookup_gather (k : κ) (items : List (κ × ι)) (m : List (κ × β)) :
    lookup k (gather put m items) = gathered put (lookup k m) (itemsOf k items) := by
  induction items generalizing m with
  | nil => rfl
  | cons item items ih =>
    rw [gather, List.foldl_cons, ← gather, ih, lookup_insert]
    by_cases hk : k = item.1
    · subst hk
      simp [itemsOf, gathered]
    · rw [if_neg hk, itemsOf, itemsOf, List.filter_cons_of_neg (by simpa using Ne.symm hk)]

theorem sorted_gather [IsStrictTotalOrder κ (· < ·)] {m : List (κ × β)} (h : Sorted m)
    (items : List (κ × ι)) : Sorted (gather put m items) := by
  induction items generalizing m with
  | nil => exact h
  | cons item items ih => exact ih (sorted_insert h _ _)

/-- **The map is known by what the items of each key make.** -/
theorem gather_eq [IsStrictTotalOrder κ (· < ·)] {m : List (κ × β)} (h : Sorted m)
    (items : List (κ × ι)) (heach : ∀ k, gathered put none (itemsOf k items) = lookup k m) :
    gather put [] items = m :=
  have hempty : Sorted ([] : List (κ × β)) := List.Pairwise.nil
  eq_of_lookup (sorted_gather put hempty items) h fun k => by
    rw [lookup_gather, lookup_nil, heach]

end Gather

end Assoc

/-- Objects that hold the same are the same. -/
theorem Json.eq_of_get? {j j' : Json} (h : j.Keyed) (h' : j'.Keyed)
    (hget : ∀ key, j.get? key = j'.get? key) : j = j' := by
  obtain ⟨fields, rfl, hsorted⟩ := h
  obtain ⟨fields', rfl, hsorted'⟩ := h'
  exact congrArg Json.obj (Assoc.eq_of_lookup hsorted hsorted' hget)
