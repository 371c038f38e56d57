/-
UAgent/Base/Evolve.lean

Lists that live on: items change in place by a relation, some drop out and
new ones are added behind.  Evolution composes when the relation does, so
what holds of an item and its later self holds over any number of changes.
-/
import Mathlib.Data.List.Forall2
import Mathlib.Data.List.Pairwise

namespace List

variable {α : Type*} {R : α → α → Prop} {P : α → α → Prop}

/-- An item after comes from an item before. -/
theorem Forall₂.exists_of_mem {before after : List α} (h : Forall₂ R before after) {b : α}
    (hb : b ∈ after) : ∃ a ∈ before, R a b := by
  induction h with
  | nil => cases hb
  | cons hc _ ih =>
    rcases mem_cons.mp hb with rfl | hb
    · exact ⟨_, mem_cons_self, hc⟩
    · obtain ⟨a, ha, hab⟩ := ih hb
      exact ⟨a, mem_cons_of_mem _ ha, hab⟩

theorem Forall₂.trans' (trans : ∀ a b c, R a b → R b c → R a c) {before middle after : List α}
    (h₁ : Forall₂ R before middle) (h₂ : Forall₂ R middle after) : Forall₂ R before after := by
  induction h₁ generalizing after with
  | nil => exact h₂
  | cons hab _ ih =>
    obtain ⟨c, tail, hbc, htail, rfl⟩ := forall₂_cons_left_iff.mp h₂
    exact .cons (trans _ _ _ hab hbc) (ih htail)

/-- A pairwise property that the change of both items keeps. -/
theorem Pairwise.of_forall₂ {before after : List α}
    (keep : ∀ a a' b b', R a a' → R b b' → P a b → P a' b') (h : Forall₂ R before after)
    (hp : before.Pairwise P) : after.Pairwise P := by
  induction h with
  | nil => exact .nil
  | cons ha h ih =>
    rw [pairwise_cons] at hp ⊢
    refine ⟨fun b' hb' => ?_, ih hp.2⟩
    obtain ⟨b, hb, hbb'⟩ := h.exists_of_mem hb'
    exact keep _ _ b b' ha hbb' (hp.1 b hb)

/-- What happens to the items that are left is a change of the whole list. -/
theorem Sublist.exists_forall₂ (refl : ∀ a, R a a) {kept whole kept' : List α}
    (hs : kept <+ whole) (h : Forall₂ R kept kept') :
    ∃ whole', Forall₂ R whole whole' ∧ kept' <+ whole' := by
  induction hs generalizing kept' with
  | slnil => exact ⟨kept', h, .refl _⟩
  | @cons kept whole a _ ih =>
    obtain ⟨whole', hwhole, hsub⟩ := ih h
    exact ⟨a :: whole', .cons (refl a) hwhole, hsub.cons a⟩
  | @cons_cons kept whole a _ ih =>
    obtain ⟨a', tail, ha, htail, rfl⟩ := forall₂_cons_left_iff.mp h
    obtain ⟨whole', hwhole, hsub⟩ := ih htail
    exact ⟨a' :: whole', .cons ha hwhole, hsub.cons_cons a'⟩

/-- The first item that meets `p` changes, the others stay. -/
theorem forall₂_modify_findIdx (refl : ∀ a, R a a) {p : α → Bool} {f : α → α} {l : List α}
    (h : ∀ a ∈ l, p a → R a (f a)) : Forall₂ R l (l.modify (l.findIdx p) f) := by
  induction l with
  | nil => rw [modify_nil]; exact .nil
  | cons a l ih =>
    rw [findIdx_cons]
    cases hp : p a with
    | true =>
      rw [cond_true, modify_zero_cons]
      exact .cons (h a mem_cons_self hp) (forall₂_same.mpr fun b _ => refl b)
    | false =>
      rw [cond_false, modify_succ_cons]
      exact .cons (refl a) (ih fun b hb => h b (mem_cons_of_mem a hb))

/-- What a change of an item keeps, it keeps of the list. -/
theorem map_modify_of_eq {β : Type*} {f : α → α} {g : α → β} (h : ∀ a, g (f a) = g a) (l : List α)
    (i : Nat) : (l.modify i f).map g = l.map g := by
  induction l generalizing i with
  | nil => rw [modify_nil]
  | cons a l ih =>
    cases i with
    | zero => rw [modify_zero_cons, map_cons, map_cons, h]
    | succ i => rw [modify_succ_cons, map_cons, map_cons, ih]

theorem mem_modify_findIdx {p : α → Bool} {f : α → α} {l : List α} {b : α}
    (hb : b ∈ l.modify (l.findIdx p) f) : b ∈ l ∨ ∃ a ∈ l, p a ∧ b = f a := by
  have hall : Forall₂ (fun a b => b = a ∨ p a ∧ b = f a) l (l.modify (l.findIdx p) f) :=
    forall₂_modify_findIdx (fun _ => .inl rfl) fun a _ hp => .inr ⟨hp, rfl⟩
  obtain ⟨a, ha, rfl | hab⟩ := hall.exists_of_mem hb
  · exact .inl ha
  · exact .inr ⟨a, ha, hab⟩

variable (R) in
/-- `after` comes from `before`: the items changed by `R`, some of them dropped,
and new ones behind. -/
def Evolves (fresh : α → Prop) (before after : List α) : Prop :=
  ∃ changed new, Forall₂ R before changed ∧ after <+ changed ++ new ∧ ∀ a ∈ new, fresh a

namespace Evolves

variable {fresh : α → Prop} {before middle after : List α}

theorem of_forall₂ (h : Forall₂ R before after) : Evolves R fresh before after :=
  ⟨after, [], h, by rw [append_nil], fun _ ha => nomatch ha⟩

theorem of_sublist (refl : ∀ a, R a a) (h : after <+ before) : Evolves R fresh before after :=
  ⟨before, [], forall₂_same.mpr fun a _ => refl a, by rwa [append_nil], fun _ ha => nomatch ha⟩

theorem of_append (refl : ∀ a, R a a) {new : List α} (h : ∀ a ∈ new, fresh a) :
    Evolves R fresh before (before ++ new) :=
  ⟨before, new, forall₂_same.mpr fun a _ => refl a, .refl _, h⟩

/-- **Evolution composes.**  A new item may change further. -/
theorem trans (refl : ∀ a, R a a) (trans : ∀ a b c, R a b → R b c → R a c)
    (closed : ∀ a b, fresh a → R a b → fresh b) (h₁ : Evolves R fresh before middle)
    (h₂ : Evolves R fresh middle after) : Evolves R fresh before after := by
  obtain ⟨changed, new, hchanged, hsub, hnew⟩ := h₁
  obtain ⟨changed', new', hchanged', hsub', hnew'⟩ := h₂
  obtain ⟨whole, hwhole, hsubWhole⟩ := hsub.exists_forall₂ refl hchanged'
  -- The whole of the first evolution, changed once more, splits where it did.
  refine ⟨whole.take changed.length, whole.drop changed.length ++ new', ?_, ?_, ?_⟩
  · have hold : Forall₂ R changed (whole.take changed.length) := by
      have := forall₂_take changed.length hwhole
      rwa [take_left] at this
    exact hchanged.trans' trans hold
  · rw [← append_assoc, take_append_drop]
    exact hsub'.trans (hsubWhole.append (.refl _))
  · intro a ha
    rcases mem_append.mp ha with ha | ha
    · have hdrop : Forall₂ R new (whole.drop changed.length) := by
        have := forall₂_drop changed.length hwhole
        rwa [drop_left] at this
      obtain ⟨b, hb, hba⟩ := hdrop.exists_of_mem ha
      exact closed b a (hnew b hb) hba
    · exact hnew' a ha

end Evolves

end List
