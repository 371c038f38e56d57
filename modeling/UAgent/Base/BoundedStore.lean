/-
UAgent/Base/BoundedStore.lean

A map that remembers in which order its keys came, and makes room for a new
key by giving up the oldest entry that may go: a receipt cache.  The keys
stand twice, in the list and in the map; `Sound` says that the two agree and
that the bound is kept.

Each operation comes with what it does to a lookup, and with the lemma that
it keeps the store sound.  Which entries may go is a predicate on their
values, so an entry that it spares stays (`get?_makeRoom_of_spared`).
-/
import UAgent.Base.Json
import Mathlib.Data.List.Nodup
import Mathlib.Data.List.Perm.Basic

/-- The entries by key, and the keys in the order they came. -/
structure BoundedStore (κ β : Type*) where
  order : List κ := []
  entries : List (κ × β) := []

namespace BoundedStore

/-! ### Operations -/

section Operations

variable {κ β : Type*} [DecidableEq κ]

/-- The value under a key. -/
def get? (s : BoundedStore κ β) (k : κ) : Option β := Assoc.lookup k s.entries

def remove (s : BoundedStore κ β) (k : κ) : BoundedStore κ β :=
  { order := s.order.erase k, entries := Assoc.erase k s.entries }

/-- The oldest key whose entry may go. -/
def oldest (s : BoundedStore κ β) (mayGo : β → Bool) : Option κ :=
  s.order.find? fun k => (s.get? k).any mayGo

/-- A full store gives up the oldest entry that may go; there may be none. -/
def makeRoom (s : BoundedStore κ β) (limit : Nat) (mayGo : β → Bool) : Option (BoundedStore κ β) :=
  if s.order.length < limit then some s else (s.oldest mayGo).map s.remove

variable [LT κ] [DecidableLT κ]

/-- The value of a key is replaced; the order stays. -/
def set (s : BoundedStore κ β) (k : κ) (v : β) : BoundedStore κ β :=
  { s with entries := Assoc.insert k v s.entries }

/-- A new key joins as the youngest. -/
def push (s : BoundedStore κ β) (k : κ) (v : β) : BoundedStore κ β :=
  { order := s.order ++ [k], entries := Assoc.insert k v s.entries }

end Operations

/-! ### Lookups -/

section Lookups

variable {κ β : Type*} [DecidableEq κ] {s s' : BoundedStore κ β} {limit : Nat} {mayGo : β → Bool}

theorem get?_remove (s : BoundedStore κ β) (k j : κ) :
    (s.remove k).get? j = if j = k then none else s.get? j := Assoc.lookup_erase k j s.entries

theorem get?_set [LT κ] [DecidableLT κ] (s : BoundedStore κ β) (k j : κ) (v : β) :
    (s.set k v).get? j = if j = k then some v else s.get? j := Assoc.lookup_insert k j v s.entries

theorem get?_push [LT κ] [DecidableLT κ] (s : BoundedStore κ β) (k j : κ) (v : β) :
    (s.push k v).get? j = if j = k then some v else s.get? j := Assoc.lookup_insert k j v s.entries

/-- What room is made of: nothing, or one entry that may go. -/
theorem makeRoom_cases (h : s.makeRoom limit mayGo = some s') :
    (s.order.length < limit ∧ s' = s) ∨
      ∃ k v, k ∈ s.order ∧ s.get? k = some v ∧ mayGo v = true ∧ s' = s.remove k := by
  rw [makeRoom] at h
  split_ifs at h with hlt
  · exact .inl ⟨hlt, (Option.some.inj h).symm⟩
  · obtain ⟨k, hk, rfl⟩ := Option.map_eq_some_iff.mp h
    have hany : (s.get? k).any mayGo = true := by simpa using List.find?_some hk
    obtain ⟨v, hv, hgo⟩ := (Option.any_eq_true _ _).mp hany
    exact .inr ⟨k, v, List.mem_of_find?_eq_some hk, hv, hgo, rfl⟩

/-- Making room keeps every entry that may not go. -/
theorem get?_makeRoom_of_spared (h : s.makeRoom limit mayGo = some s') {k : κ} {v : β}
    (hk : s.get? k = some v) (hv : mayGo v = false) : s'.get? k = some v := by
  rcases makeRoom_cases h with ⟨-, rfl⟩ | ⟨j, w, -, hj, hw, rfl⟩
  · exact hk
  · rw [get?_remove, if_neg]
    · exact hk
    · rintro rfl
      rw [hk, Option.some.injEq] at hj
      rw [hj, hw] at hv
      exact Bool.noConfusion hv

/-- Making room brings nothing in. -/
theorem get?_of_makeRoom (h : s.makeRoom limit mayGo = some s') {k : κ} {v : β}
    (hk : s'.get? k = some v) : s.get? k = some v := by
  rcases makeRoom_cases h with ⟨-, rfl⟩ | ⟨j, w, -, -, -, rfl⟩
  · exact hk
  · rw [get?_remove] at hk
    split_ifs at hk
    exact hk

theorem get?_makeRoom_eq_none (h : s.makeRoom limit mayGo = some s') {k : κ}
    (hk : s.get? k = none) : s'.get? k = none := by
  rcases hk' : s'.get? k with - | v
  · rfl
  · rw [get?_of_makeRoom h hk'] at hk
    cases hk

end Lookups

/-! ### Soundness -/

section Sound

variable {κ β : Type*} [DecidableEq κ] [LT κ]

/-- The list and the map hold the same keys, each once, and at most `limit`
of them. -/
structure Sound (limit : Nat) (s : BoundedStore κ β) : Prop where
  nodup : s.order.Nodup
  sorted : Assoc.Sorted s.entries
  mem_iff : ∀ k, k ∈ s.order ↔ (s.get? k).isSome
  length_le : s.order.length ≤ limit

namespace Sound

variable {s s' : BoundedStore κ β} {limit : Nat}

theorem empty (limit : Nat) : Sound limit ({} : BoundedStore κ β) where
  nodup := List.nodup_nil
  sorted := List.Pairwise.nil
  mem_iff k := by simp [get?]
  length_le := Nat.zero_le _

theorem remove (h : Sound limit s) (k : κ) : Sound limit (s.remove k) where
  nodup := h.nodup.erase k
  sorted := Assoc.sorted_erase h.sorted k
  mem_iff j := by
    rw [get?_remove]
    show j ∈ s.order.erase k ↔ _
    rw [h.nodup.mem_erase_iff]
    split_ifs with hj
    · simp [hj]
    · simp [hj, h.mem_iff j]
  length_le := (List.erase_sublist.length_le).trans h.length_le

/-- Making room leaves a sound store with room. -/
theorem makeRoom (h : Sound limit s) {mayGo : β → Bool} (hs : s.makeRoom limit mayGo = some s') :
    Sound limit s' ∧ s'.order.length < limit := by
  rcases makeRoom_cases hs with ⟨hlt, rfl⟩ | ⟨k, v, hk, -, -, rfl⟩
  · exact ⟨h, hlt⟩
  · refine ⟨h.remove k, ?_⟩
    have hpos := List.length_pos_of_mem hk
    have hle := h.length_le
    show (s.order.erase k).length < limit
    rw [List.length_erase_of_mem hk]
    omega

variable [IsStrictTotalOrder κ (· < ·)]

/-- The order is the keys of the map in another order. -/
theorem perm (h : Sound limit s) : s.order.Perm (s.entries.map Prod.fst) := by
  have hkeys : (s.entries.map Prod.fst).Nodup := by
    refine List.Pairwise.imp (fun hlt => ?_) h.sorted
    rintro rfl
    exact irrefl_of (· < ·) _ hlt
  refine (List.perm_ext_iff_of_nodup h.nodup hkeys).mpr fun k => ?_
  rw [h.mem_iff, Option.isSome_iff_ne_none, get?, Ne, Assoc.lookup_eq_none, not_not]

variable [DecidableLT κ]

theorem set (h : Sound limit s) {k : κ} (hk : (s.get? k).isSome) (v : β) :
    Sound limit (s.set k v) where
  nodup := h.nodup
  sorted := Assoc.sorted_insert h.sorted k v
  mem_iff j := by
    rw [get?_set]
    split_ifs with hj
    · subst hj
      exact iff_of_true ((h.mem_iff j).mpr hk) rfl
    · exact h.mem_iff j
  length_le := h.length_le

/-- A new key joins a store with room. -/
theorem push (h : Sound limit s) {k : κ} (hk : s.get? k = none) (hroom : s.order.length < limit)
    (v : β) : Sound limit (s.push k v) where
  nodup := by
    have hnew : k ∉ s.order := by simp [h.mem_iff, hk]
    exact List.nodup_append.mpr ⟨h.nodup, List.nodup_singleton k,
      fun a ha b hb => by
        rintro rfl
        exact hnew (List.mem_singleton.mp hb ▸ ha)⟩
  sorted := Assoc.sorted_insert h.sorted k v
  mem_iff j := by
    rw [get?_push]
    show j ∈ s.order ++ [k] ↔ _
    split_ifs with hj
    · simp [hj]
    · simp [hj, h.mem_iff j]
  length_le := by
    show (s.order ++ [k]).length ≤ limit
    rw [List.length_append]
    exact hroom

end Sound

end Sound

end BoundedStore
