/-
UAgent/Base/Traced.lean

Texts that remember where they come from.  A symbol of an edited text is
either one of the original, and then carries its position there, or ink: part
of a mark an edit has written.  Every mark begins with a symbol that opens
and ends with one that closes, so a run of the edited text that holds neither
is a run of the original or lies within one mark.

`Derived` is what edits by `Piece.sweep` preserve (**`Derived.sweep`**), and
**`Derived.run`** is how it is used: what follows a symbol of the original is
the original, up to the first position that was taken out, and then a mark.
-/
import UAgent.Base.Sweep
import Mathlib.Data.List.Pairwise

/-- A symbol of an edited text, and the position it has in the original. -/
abbrev Traced (α : Type*) := α × Option Nat

namespace Traced

open Piece

variable {α : Type*}

/-- A text at its own positions, from `x` on. -/
def positions : Nat → List α → List (Traced α)
  | _, [] => []
  | x, a :: s => (a, some x) :: positions (x + 1) s

/-- A symbol no original has. -/
def ink (a : α) : Traced α := (a, none)

/-- The positions of the original that are still there. -/
def origins (T : List (Traced α)) : List Nat := T.filterMap Prod.snd

/-! ### Positions -/

section Positions

variable {x n i : Nat} {s : List α}

@[simp] theorem map_fst_positions : (positions x s).map Prod.fst = s := by
  induction s generalizing x with
  | nil => rfl
  | cons a s ih => simp [positions, ih]

@[simp] theorem length_positions : (positions x s).length = s.length := by
  rw [← List.length_map (f := Prod.fst), map_fst_positions]

theorem take_positions : (positions x s).take n = positions x (s.take n) := by
  induction n generalizing x s with
  | zero => simp [positions]
  | succ n ih => rcases s with - | ⟨a, s⟩ <;> simp [positions, ih]

theorem drop_positions : (positions x s).drop n = positions (x + n) (s.drop n) := by
  induction n generalizing x s with
  | zero => simp
  | succ n ih => rcases s with - | ⟨a, s⟩ <;> simp [positions, ih, Nat.add_assoc, Nat.add_comm 1]

@[simp] theorem origins_nil : origins ([] : List (Traced α)) = [] := rfl
@[simp] theorem origins_append (T T' : List (Traced α)) :
    origins (T ++ T') = origins T ++ origins T' := List.filterMap_append
@[simp] theorem origins_cons_some (a : α) (T : List (Traced α)) :
    origins ((a, some i) :: T) = i :: origins T := rfl
@[simp] theorem origins_cons_none (a : α) (T : List (Traced α)) :
    origins ((a, none) :: T) = origins T := rfl

@[simp] theorem origins_map_ink (mark : List α) : origins (mark.map ink) = [] := by
  induction mark with
  | nil => rfl
  | cons a mark ih => simpa [ink] using ih

@[simp] theorem mem_origins_positions :
    i ∈ origins (positions x s) ↔ x ≤ i ∧ i < x + s.length := by
  induction s generalizing x with
  | nil => simp [positions]
  | cons a s ih =>
    simp only [positions, origins_cons_some, List.mem_cons, ih, List.length_cons]
    omega

theorem mem_origins {T : List (Traced α)} : i ∈ origins T ↔ ∃ a, (a, some i) ∈ T := by
  simp [origins]

theorem sorted_positions : (origins (positions x s)).Pairwise (· < ·) := by
  induction s generalizing x with
  | nil => exact .nil
  | cons a s ih =>
    simp only [positions, origins_cons_some, List.pairwise_cons, mem_origins_positions]
    exact ⟨fun i hi => by omega, ih⟩

end Positions

/-! ### Edited texts -/

/-- A text made from `text` by taking runs out and writing marks in their
place. -/
structure Derived (opens closes : α → Prop) (text : List α) (T : List (Traced α)) : Prop where
  sorted : (origins T).Pairwise (· < ·)
  symbol : ∀ a i, (a, some i) ∈ T → text[i]? = some a
  next : ∀ u v a i, T = u ++ (a, some i) :: v →
    (∃ a' v', v = (a', some (i + 1)) :: v') ∨
      (i + 1 ∉ origins T ∧ ∀ c ∈ v.head?, c.2 = none ∧ opens c.1)
  enter : ∀ u v a b j, T = u ++ (a, none) :: (b, some j) :: v → closes a

variable {opens closes : α → Prop} {text : List α}

theorem positions_eq_append_cons {x i : Nat} {s : List α} {o : Option Nat} {u v : List (Traced α)}
    {a : α} (h : positions x s = u ++ (a, o) :: v) (ho : o = some i ∨ o = none) :
    o = some i ∧ i = x + u.length ∧ s[u.length]? = some a ∧
      v = positions (i + 1) (s.drop (u.length + 1)) := by
  induction u generalizing x s with
  | nil =>
    rcases s with - | ⟨b, s⟩
    · simp [positions] at h
    · obtain ⟨⟨rfl, rfl⟩, rfl⟩ : (b = a ∧ some x = o) ∧ positions (x + 1) s = v := by
        simpa [positions] using h
      obtain rfl : x = i := by simpa using ho
      simp
  | cons c u ih =>
    rcases s with - | ⟨b, s⟩
    · simp [positions] at h
    · obtain ⟨-, hrest⟩ : (b, some x) = c ∧ positions (x + 1) s = u ++ (a, o) :: v := by
        simpa [positions] using h
      obtain ⟨h1, h2, h3, h4⟩ := ih hrest
      refine ⟨h1, ?_, by simpa using h3, by simpa using h4⟩
      rw [h2, List.length_cons]
      omega

/-- A text is made from itself. -/
theorem Derived.refl (opens closes : α → Prop) (text : List α) :
    Derived opens closes text (positions 0 text) where
  sorted := sorted_positions
  symbol a i h := by
    obtain ⟨u, v, huv⟩ := List.append_of_mem h
    obtain ⟨-, hi, ha, -⟩ := positions_eq_append_cons (i := i) huv (Or.inl rfl)
    rw [hi, Nat.zero_add, ha]
  next u v a i h := by
    obtain ⟨-, hi, ha, hv⟩ := positions_eq_append_cons (i := i) h (Or.inl rfl)
    rw [Nat.zero_add] at hi
    rcases hs : text.drop (u.length + 1) with - | ⟨b, t⟩
    · refine Or.inr ⟨fun hmem => ?_, by simp [hv, hs, positions]⟩
      have hlen := List.drop_eq_nil_iff.mp hs
      have hlt := (mem_origins_positions.mp hmem).2
      omega
    · exact Or.inl ⟨b, positions (i + 1 + 1) t, by rw [hv, hs, positions]⟩
  enter u v a b j h := by
    have := (positions_eq_append_cons (i := 0 + u.length) h (Or.inr rfl)).1
    simp at this

/-! ### What an edit leaves -/

section Sweep

variable {mark : List α} {ps : List (Piece (Traced α))} {i : Nat}

/-- The pieces of an edit that cuts are not empty. -/
def Cuts (ps : List (Piece (Traced α))) : Prop := ∀ d, cut d ∈ ps → d ≠ []

theorem origins_renders_sublist :
    (origins (renders (mark.map ink) ps)).Sublist (origins (sources ps)) := by
  induction ps with
  | nil => exact .slnil
  | cons p ps ih =>
    rw [renders_cons, sources_cons, origins_append, origins_append]
    refine List.Sublist.append ?_ ih
    rcases p with c | d
    · exact List.Sublist.refl _
    · rw [render_cut, origins_map_ink]
      exact List.nil_sublist _

/-- What is cut is gone. -/
theorem not_mem_origins_renders (hsorted : (origins (sources ps)).Pairwise (· < ·))
    {pu pv : List (Piece (Traced α))} {d : List (Traced α)} (hps : ps = pu ++ cut d :: pv)
    (hi : i ∈ origins d) : i ∉ origins (renders (mark.map ink) ps) := by
  subst hps
  intro hmem
  simp only [sources_append, sources_cons, source_cut, origins_append,
    List.pairwise_append, List.mem_append] at hsorted
  simp only [renders_append, renders_cons, render_cut, origins_append, origins_map_ink,
    List.nil_append, List.mem_append] at hmem
  obtain ⟨-, ⟨-, -, hright⟩, hleft⟩ := hsorted
  rcases hmem with h | h
  · exact lt_irrefl i (hleft i (origins_renders_sublist.subset h) i (Or.inl hi))
  · exact lt_irrefl i (hright i hi i (origins_renders_sublist.subset h))

theorem renders_head? {a : α} (hmark : mark.head? = some a) (ps : List (Piece (Traced α)))
    (hcuts : Cuts ps) :
    (sources ps = [] ∧ renders (mark.map ink) ps = []) ∨
      (∃ c T T', sources ps = c :: T ∧ renders (mark.map ink) ps = c :: T' ∧
        ∃ pv, ps = keep c :: pv) ∨
      ∃ c d pv T', ps = cut (c :: d) :: pv ∧ renders (mark.map ink) ps = (a, none) :: T' := by
  rcases ps with - | ⟨p, ps⟩
  · exact Or.inl ⟨rfl, rfl⟩
  · rcases p with c | d
    · exact Or.inr (Or.inl ⟨c, _, _, rfl, rfl, ps, rfl⟩)
    · rcases d with - | ⟨c, d⟩
      · exact absurd rfl (hcuts [] List.mem_cons_self)
      · rcases mark with - | ⟨b, mark⟩
        · simp at hmark
        · obtain rfl : b = a := by simpa using hmark
          exact Or.inr (Or.inr ⟨c, d, ps, _, rfl, rfl⟩)

/-- A symbol of the original in an edited text was kept, with what the edit made
of the text before and behind it. -/
theorem renders_eq_append_some {u v : List (Traced α)} {c : α}
    (h : renders (mark.map ink) ps = u ++ (c, some i) :: v) :
    ∃ pu pv, ps = pu ++ keep (c, some i) :: pv ∧ renders (mark.map ink) pu = u ∧
      renders (mark.map ink) pv = v := by
  rcases renders_eq_append_cons h with hkeep | ⟨pu, d, pv, as, bs, -, hmark, -⟩
  · exact hkeep
  · have hmem : (c, some i) ∈ mark.map ink := by simp [hmark]
    simp [ink] at hmem

/-- **Edits preserve the relation**: cutting runs of a derived text and writing a
mark in the place of each leaves a derived text. -/
theorem Derived.sweep (hT : Derived opens closes text (sources ps)) (hcuts : Cuts ps) {a b : α}
    {mid : List α} (hmark : mark = a :: (mid ++ [b])) (ha : opens a) (hb : closes b) :
    Derived opens closes text (renders (mark.map ink) ps) where
  sorted := hT.sorted.sublist origins_renders_sublist
  symbol c i h := by
    obtain ⟨u, v, huv⟩ := List.append_of_mem h
    obtain ⟨pu, pv, rfl, -, -⟩ := renders_eq_append_some huv
    exact hT.symbol c i (by simp)
  next u v c i h := by
    obtain ⟨pu, pv, rfl, -, rfl⟩ := renders_eq_append_some h
    have hmem := hT.next (sources pu) (sources pv) c i (by simp)
    have hgone : i + 1 ∉ origins (sources (pu ++ keep (c, some i) :: pv)) →
        i + 1 ∉ origins (renders (mark.map ink) (pu ++ keep (c, some i) :: pv)) :=
      fun h h' => h (origins_renders_sublist.subset h')
    have hcuts' : Cuts pv := fun d hd => hcuts d (by simp [hd])
    have hfirst : mark.head? = some a := by simp [hmark]
    rcases renders_head? hfirst pv hcuts' with
      ⟨hsrc, hren⟩ | ⟨x, T, T', hsrc, hren, -⟩ | ⟨x, d, pw, T', rfl, hren⟩
    · -- the text ends here
      rw [hsrc] at hmem
      rw [hren]
      rcases hmem with ⟨_, _, hnil⟩ | ⟨hnot, -⟩
      · simp at hnil
      · exact Or.inr ⟨hgone hnot, by simp⟩
    · -- the next symbol was kept
      rw [hsrc] at hmem
      rw [hren]
      rcases hmem with ⟨a', v', heq⟩ | ⟨hnot, hhead⟩
      · obtain ⟨rfl, rfl⟩ : x = (a', some (i + 1)) ∧ T = v' := by simpa using heq
        exact Or.inl ⟨a', T', rfl⟩
      · exact Or.inr ⟨hgone hnot, by simpa using hhead⟩
    · -- a mark stands in the place of the next symbol
      rw [hren]
      refine Or.inr ⟨?_, by simp [ha]⟩
      rcases hmem with ⟨a', v', heq⟩ | ⟨hnot, -⟩
      · obtain ⟨rfl, -⟩ : x = (a', some (i + 1)) ∧ _ := by simpa using heq
        have hcut : pu ++ keep (c, some i) :: cut ((a', some (i + 1)) :: d) :: pw =
            (pu ++ [keep (c, some i)]) ++ cut ((a', some (i + 1)) :: d) :: pw := by simp
        exact not_mem_origins_renders hT.sorted hcut (by simp)
      · exact hgone hnot
  enter u v c c' j h := by
    obtain ⟨pu, pv, rfl, hpu, hpv⟩ : ∃ pu pv, ps = pu ++ keep (c', some j) :: pv ∧
        renders (mark.map ink) pu = u ++ [(c, none)] ∧ renders (mark.map ink) pv = v :=
      renders_eq_append_some (by rw [h]; simp)
    rcases renders_eq_append_cons (v := []) hpu with
      ⟨pu', pw, rfl, -, hpw⟩ | ⟨pu', d, pw, as, bs, rfl, hab, -, hpw⟩
    · -- nothing is written between the two
      have hfirst : mark.head? = some a := by simp [hmark]
      rcases renders_head? hfirst pw fun d hd => hcuts d (by simp [hd]) with
        ⟨hsrc, -⟩ | ⟨x, T, T', -, hren, -⟩ | ⟨x, d, pw', T', -, hren⟩
      · exact hT.enter (sources pu') (sources pv) c c' j (by simp [hsrc])
      · simp [hren] at hpw
      · simp [hren] at hpw
    · obtain ⟨rfl, -⟩ : bs = [] ∧ _ := by simpa using hpw.symm
      have hcat : (a :: mid).map ink ++ [ink b] = as ++ [(c, none)] := by rw [← hab, hmark]; simp
      obtain rfl : b = c := by simpa [ink] using List.append_inj_right' hcat rfl
      exact hb

/-- **What follows a symbol of the original**: the original, up to the first
position that was taken out, and then nothing or a mark. -/
theorem Derived.run {T : List (Traced α)} (hT : Derived opens closes text T)
    {u v : List (Traced α)} {c : α} {x : Nat} (h : T = u ++ (c, some x) :: v) :
    ∃ n rest, 0 < n ∧ x + n ≤ text.length ∧
      (c, some x) :: v = positions x ((text.drop x).take n) ++ rest ∧ x + n ∉ origins T ∧
      ∀ t ∈ rest.head?, t.2 = none ∧ opens t.1 := by
  induction hn : v.length using Nat.strong_induction_on generalizing u v c x with
  | _ m ih =>
    subst hn
    have hc := hT.symbol c x (by simp [h])
    obtain ⟨hlt, hget⟩ := List.getElem?_eq_some_iff.mp hc
    have hdrop : text.drop x = c :: text.drop (x + 1) := by
      rw [List.drop_eq_getElem_cons hlt, hget]
    rcases hT.next u v c x h with ⟨a', v', rfl⟩ | ⟨hnot, hhead⟩
    · have hsplit : T = (u ++ [(c, some x)]) ++ (a', some (x + 1)) :: v' := by rw [h]; simp
      obtain ⟨n, rest, hpos, hle, heq, hnot, hhead⟩ := ih v'.length (by simp) hsplit rfl
      refine ⟨n + 1, rest, by omega, by omega, ?_, by rwa [Nat.add_right_comm] at hnot, hhead⟩
      rw [hdrop, List.take_succ_cons, positions, List.cons_append, ← heq]
    · refine ⟨1, v, by omega, by omega, ?_, hnot, hhead⟩
      rw [hdrop]
      simp [positions]

/-- Positions stand in their order. -/
theorem Derived.lt_of_split {T : List (Traced α)} (hT : Derived opens closes text T)
    {u v : List (Traced α)} {c : α} {x : Nat} (h : T = u ++ (c, some x) :: v) :
    (∀ j ∈ origins u, j < x) ∧ ∀ j ∈ origins v, x < j := by
  have hsorted := hT.sorted
  rw [h, origins_append, origins_cons_some, List.pairwise_append, List.pairwise_cons] at hsorted
  exact ⟨fun j hj => hsorted.2.2 j hj x List.mem_cons_self, hsorted.2.1.1⟩

/-- A run that begins in a mark and holds nothing that closes one stays in it. -/
theorem Derived.dry {T : List (Traced α)} (hT : Derived opens closes text T)
    {u v : List (Traced α)} {c : α} {m : Nat} (h : T = u ++ (c, none) :: v)
    (hclose : ∀ t ∈ ((c, none) :: v).take m, ¬closes t.1) :
    origins (((c, none) :: v).take m) = [] := by
  induction m generalizing u v c with
  | zero => rfl
  | succ m ih =>
    rw [List.take_succ_cons, origins_cons_none]
    rcases m with - | m
    · rfl
    · rcases v with - | ⟨⟨b, o⟩, v⟩
      · rfl
      · rcases o with - | j
        · exact ih (u := u ++ [(c, none)]) (by rw [h]; simp) fun t ht =>
            hclose t (by rw [List.take_succ_cons]; exact List.mem_cons_of_mem _ ht)
        · exact absurd (hT.enter u v c b j h) (hclose (c, none) (by simp))

end Sweep

end Traced
