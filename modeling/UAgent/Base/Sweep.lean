/-
UAgent/Base/Sweep.lean

Replacing the matches of a text, from left to right.  A matcher reads the
beginning of a text and answers how many symbols it keeps and how many it
drops behind them.  `sweep` walks the text once: where the matcher fires the
kept part stays, the dropped part becomes one `cut`, and the walk goes on
behind it; elsewhere one symbol stays and the walk moves on by one.

The result is a list of pieces, and not yet a text, so that a proof can ask
what became of each position: `source` gives the text back, `render` writes a
mark in the place of each cut.  `Swept` is the relation between a matcher and
the pieces of one walk; its two readings are what proofs use:

* `Swept.keep_match`: where a kept symbol begins a match, a firing keeps it,
* `Swept.cut_fired`: what was cut, was dropped by a firing.
-/
import Mathlib.Data.List.Basic
import Mathlib.Data.List.Infix
import Mathlib.Data.List.Flatten

/-- A piece of a swept text: a symbol that stays, or a run that is dropped. -/
inductive Piece (α : Type*)
  | keep (a : α)
  | cut (dropped : List α)

namespace Piece

variable {α β : Type*}

/-- What a piece stood for. -/
def source : Piece α → List α
  | keep a => [a]
  | cut dropped => dropped

/-- What a piece is written as. -/
def render (mark : List α) : Piece α → List α
  | keep a => [a]
  | cut _ => mark

/-- The text that was swept. -/
def sources (ps : List (Piece α)) : List α := ps.flatMap source

/-- The text that is written. -/
def renders (mark : List α) (ps : List (Piece α)) : List α := ps.flatMap (render mark)

@[simp] theorem sources_nil : sources ([] : List (Piece α)) = [] := rfl
@[simp] theorem sources_cons (p : Piece α) (ps : List (Piece α)) :
    sources (p :: ps) = p.source ++ sources ps := rfl
@[simp] theorem sources_append (ps qs : List (Piece α)) :
    sources (ps ++ qs) = sources ps ++ sources qs := List.flatMap_append
@[simp] theorem renders_nil (mark : List α) : renders mark [] = [] := rfl
@[simp] theorem renders_cons (mark : List α) (p : Piece α) (ps : List (Piece α)) :
    renders mark (p :: ps) = p.render mark ++ renders mark ps := rfl
@[simp] theorem renders_append (mark : List α) (ps qs : List (Piece α)) :
    renders mark (ps ++ qs) = renders mark ps ++ renders mark qs := List.flatMap_append
@[simp] theorem source_keep (a : α) : (keep a).source = [a] := rfl
@[simp] theorem source_cut (d : List α) : (cut d).source = d := rfl
@[simp] theorem render_keep (mark : List α) (a : α) : (keep a).render mark = [a] := rfl
@[simp] theorem render_cut (mark d : List α) : (cut d).render mark = mark := rfl

@[simp] theorem sources_map_keep (z : List α) : sources (z.map keep) = z := by
  induction z with
  | nil => rfl
  | cons a z ih => simp [ih]

@[simp] theorem renders_map_keep (mark z : List α) : renders mark (z.map keep) = z := by
  induction z with
  | nil => rfl
  | cons a z ih => simp [ih]

/-! ### The walk -/

/-- The walk over a text, with the number of symbols still to be skipped. -/
def sweepFrom (m : List α → Option (Nat × Nat)) : Nat → List α → List (Piece α)
  | _, [] => []
  | n + 1, _ :: t => sweepFrom m n t
  | 0, c :: t =>
    match m (c :: t) with
    | some (k, d) =>
      ((c :: t).take k).map keep ++
        cut (((c :: t).drop k).take d) :: sweepFrom m (k + d - 1) t
    | none => keep c :: sweepFrom m 0 t

/-- The pieces of a text. -/
def sweep (m : List α → Option (Nat × Nat)) (s : List α) : List (Piece α) := sweepFrom m 0 s

/-- A matcher stays within the text and drops something. -/
def Fits (m : List α → Option (Nat × Nat)) : Prop :=
  ∀ s k d, m s = some (k, d) → 0 < d ∧ k + d ≤ s.length

/-- The pieces a matcher leaves. -/
inductive Swept (m : List α → Option (Nat × Nat)) : List (Piece α) → Prop
  | nil : Swept m []
  | pass {c : α} {ps : List (Piece α)} (none : m (c :: sources ps) = none) (rest : Swept m ps) :
      Swept m (keep c :: ps)
  | fire {z d : List α} {ps : List (Piece α)} (some : m (z ++ (d ++ sources ps)) =
      some (z.length, d.length)) (ne : d ≠ []) (rest : Swept m ps) :
      Swept m (z.map keep ++ cut d :: ps)

theorem sweepFrom_eq (m : List α → Option (Nat × Nat)) (n : Nat) (s : List α) :
    sweepFrom m n s = sweep m (s.drop n) := by
  induction s generalizing n with
  | nil => simp [sweep, sweepFrom]
  | cons c s ih =>
    rcases n with - | n
    · rfl
    · simpa [sweepFrom] using ih n

theorem sweep_cons_none {m : List α → Option (Nat × Nat)} {c : α} {t : List α}
    (h : m (c :: t) = none) : sweep m (c :: t) = keep c :: sweep m t := by
  simp [sweep, sweepFrom, h]

theorem sweep_some {m : List α → Option (Nat × Nat)} (hm : Fits m) {s : List α} {k d : Nat}
    (h : m s = some (k, d)) :
    sweep m s = (s.take k).map keep ++ cut ((s.drop k).take d) :: sweep m (s.drop (k + d)) := by
  obtain ⟨hd, hle⟩ := hm _ _ _ h
  rcases s with - | ⟨c, t⟩
  · simp at hle
    omega
  · rw [sweep, sweepFrom, h]
    simp only
    rw [sweepFrom_eq]
    congr 3
    obtain ⟨e, he⟩ : ∃ e, k + d = e + 1 := ⟨k + d - 1, by omega⟩
    rw [he]
    rfl

/-- The walk covers the text and leaves what its matcher leaves. -/
theorem sweep_spec {m : List α → Option (Nat × Nat)} (hm : Fits m) (s : List α) :
    sources (sweep m s) = s ∧ Swept m (sweep m s) := by
  induction hn : s.length using Nat.strong_induction_on generalizing s with
  | _ n ih =>
    subst hn
    rcases hs : m s with - | ⟨k, d⟩
    · rcases s with - | ⟨c, t⟩
      · exact ⟨rfl, .nil⟩
      · obtain ⟨hsrc, hswept⟩ := ih t.length (by simp) t rfl
        rw [sweep_cons_none hs]
        exact ⟨by simp [hsrc], .pass (hsrc.symm ▸ hs) hswept⟩
    · obtain ⟨hd, hle⟩ := hm _ _ _ hs
      obtain ⟨hsrc, hswept⟩ := ih (s.drop (k + d)).length
        (by rw [List.length_drop]; omega) (s.drop (k + d)) rfl
      have hwhole : s.take k ++ ((s.drop k).take d ++ s.drop (k + d)) = s := by
        rw [← List.drop_drop, List.take_append_drop, List.take_append_drop]
      have hk : (s.take k).length = k := List.length_take_of_le (by omega)
      have hdl : ((s.drop k).take d).length = d :=
        List.length_take_of_le (by rw [List.length_drop]; omega)
      rw [sweep_some hm hs]
      refine ⟨?_, .fire ?_ (fun hnil => ?_) hswept⟩
      · rw [sources_append, sources_map_keep, sources_cons, source_cut, hsrc, hwhole]
      · rw [hsrc, hwhole, hk, hdl, hs]
      · rw [hnil] at hdl
        exact absurd hdl (by simpa using (by omega : 0 ≠ d))

@[simp] theorem sources_sweep {m : List α → Option (Nat × Nat)} (hm : Fits m) (s : List α) :
    sources (sweep m s) = s := (sweep_spec hm s).1

theorem swept_sweep {m : List α → Option (Nat × Nat)} (hm : Fits m) (s : List α) :
    Swept m (sweep m s) := (sweep_spec hm s).2

/-! ### Positions of a swept text -/

/-- The pieces around one symbol of a concatenation. -/
theorem flatMap_eq_append_cons {γ : Type*} {f : γ → List α} {l : List γ} {u v : List α} {c : α}
    (h : l.flatMap f = u ++ c :: v) :
    ∃ l₁ x l₂ a b, l = l₁ ++ x :: l₂ ∧ f x = a ++ c :: b ∧ u = l₁.flatMap f ++ a ∧
      v = b ++ l₂.flatMap f := by
  induction l generalizing u with
  | nil => simp at h
  | cons x l ih =>
    rw [List.flatMap_cons, List.append_eq_append_iff] at h
    rcases h with ⟨a, hu, hrest⟩ | ⟨b, hx, hrest⟩
    · obtain ⟨l₁, y, l₂, a', b, rfl, hy, ha, hv⟩ := ih hrest
      exact ⟨x :: l₁, y, l₂, a', b, rfl, hy, by rw [hu, ha]; simp, hv⟩
    · rcases b with - | ⟨b, bs⟩
      · rw [List.nil_append] at hrest
        obtain ⟨l₁, y, l₂, a', b, rfl, hy, ha, hv⟩ := ih (u := []) (by simpa using hrest.symm)
        refine ⟨x :: l₁, y, l₂, a', b, rfl, hy, ?_, hv⟩
        rw [List.append_nil] at hx
        rw [List.flatMap_cons, List.append_assoc, ← ha, hx, List.append_nil]
      · rw [List.cons_append, List.cons.injEq] at hrest
        obtain ⟨rfl, hv⟩ := hrest
        exact ⟨[], x, l, u, bs, rfl, hx, by simp, hv⟩

/-- A symbol of the written text was kept or belongs to a mark. -/
theorem renders_eq_append_cons {mark : List α} {ps : List (Piece α)} {u v : List α} {c : α}
    (h : renders mark ps = u ++ c :: v) :
    (∃ pu pv, ps = pu ++ keep c :: pv ∧ renders mark pu = u ∧ renders mark pv = v) ∨
      ∃ pu d pv a b, ps = pu ++ cut d :: pv ∧ mark = a ++ c :: b ∧ u = renders mark pu ++ a ∧
        v = b ++ renders mark pv := by
  obtain ⟨pu, p, pv, a, b, rfl, hp, hu, hv⟩ := flatMap_eq_append_cons h
  rcases p with x | d
  · obtain ⟨rfl, rfl, rfl⟩ : a = [] ∧ c = x ∧ b = [] := by
      rcases a with - | ⟨a, as⟩ <;> simp_all
    exact Or.inl ⟨pu, pv, rfl, by simpa [renders] using hu.symm, by simpa [renders] using hv.symm⟩
  · exact Or.inr ⟨pu, d, pv, a, b, rfl, hp, hu, hv⟩

/-! ### What a walk leaves -/

/-- A kept symbol at which the matcher would fire is kept by a firing, whose
kept part it may stand in the middle of. -/
theorem Swept.keep_match {m : List α → Option (Nat × Nat)} {ps : List (Piece α)}
    (h : Swept m ps) {pu pv : List (Piece α)} {c : α} (hps : ps = pu ++ keep c :: pv)
    (hm : m (c :: sources pv) ≠ none) :
    ∃ pu' z₁ z₂ d pv', pu = pu' ++ z₁.map keep ∧ pv = z₂.map keep ++ cut d :: pv' ∧ d ≠ [] ∧
      m (z₁ ++ (c :: z₂ ++ (d ++ sources pv'))) =
        some (z₁.length + (z₂.length + 1), d.length) := by
  induction h generalizing pu with
  | nil => simp at hps
  | @pass c' ps hnone _ ih =>
    rcases pu with - | ⟨p, pu⟩
    · obtain ⟨hc, rfl⟩ : c' = c ∧ ps = pv := by simpa using hps
      exact absurd (hc ▸ hnone) hm
    · obtain ⟨rfl, rfl⟩ : keep c' = p ∧ ps = pu ++ keep c :: pv := by simpa using hps
      obtain ⟨pu', z₁, z₂, d, pv', rfl, hrest⟩ := ih rfl
      exact ⟨keep c' :: pu', z₁, z₂, d, pv', rfl, hrest⟩
  | @fire z d ps hsome hne _ ih =>
    rcases List.append_eq_append_iff.mp hps with ⟨pu', rfl, hrest⟩ | ⟨w, hz, hrest⟩
    · rcases pu' with - | ⟨p, pu'⟩
      · simp at hrest
      · obtain ⟨rfl, rfl⟩ : cut d = p ∧ ps = pu' ++ keep c :: pv := by simpa using hrest
        obtain ⟨pu'', z₁, z₂, d', pv', rfl, hcont⟩ := ih rfl
        exact ⟨z.map keep ++ cut d :: pu'', z₁, z₂, d', pv', by simp, hcont⟩
    · obtain ⟨z₁, w', rfl, rfl, rfl⟩ := List.map_eq_append_iff.mp hz
      rcases w' with - | ⟨c', z₂⟩
      · simp at hrest
      · obtain ⟨rfl, rfl⟩ : c = c' ∧ pv = z₂.map keep ++ cut d :: ps := by simpa using hrest
        refine ⟨[], z₁, z₂, d, ps, by simp, rfl, hne, ?_⟩
        simpa [Nat.add_assoc] using hsome

/-- What was cut was dropped by a firing, behind what that firing kept. -/
theorem Swept.cut_fired {m : List α → Option (Nat × Nat)} {ps : List (Piece α)}
    (h : Swept m ps) {pu pv : List (Piece α)} {d : List α} (hps : ps = pu ++ cut d :: pv) :
    ∃ pu' z, pu = pu' ++ z.map keep ∧ d ≠ [] ∧
      m (z ++ (d ++ sources pv)) = some (z.length, d.length) := by
  induction h generalizing pu with
  | nil => simp at hps
  | @pass c' ps hnone _ ih =>
    rcases pu with - | ⟨p, pu⟩
    · simp at hps
    · obtain ⟨rfl, rfl⟩ : keep c' = p ∧ ps = pu ++ cut d :: pv := by simpa using hps
      obtain ⟨pu', z, rfl, hrest⟩ := ih rfl
      exact ⟨keep c' :: pu', z, rfl, hrest⟩
  | @fire z d' ps hsome hne _ ih =>
    rcases List.append_eq_append_iff.mp hps with ⟨pu', rfl, hrest⟩ | ⟨w, hz, hrest⟩
    · rcases pu' with - | ⟨p, pu'⟩
      · obtain ⟨rfl, rfl⟩ : d' = d ∧ ps = pv := by simpa using hrest
        exact ⟨[], z, by simp, hne, hsome⟩
      · obtain ⟨rfl, rfl⟩ : cut d' = p ∧ ps = pu' ++ cut d :: pv := by simpa using hrest
        obtain ⟨pu'', z', rfl, hcont⟩ := ih rfl
        exact ⟨z.map keep ++ cut d' :: pu'', z', by simp, hcont⟩
    · obtain ⟨z₁, w', rfl, rfl, rfl⟩ := List.map_eq_append_iff.mp hz
      rcases w' with - | ⟨c', z₂⟩ <;> simp at hrest
      obtain ⟨rfl, rfl⟩ := hrest
      exact ⟨[], z₁, by simp, hne, by simpa using hsome⟩

/-! ### Runs that no mark interrupts -/

section Runs

variable {mark : List α} {opens : α → Prop} {ps : List (Piece α)} {u v z : List α}

/-- A run at the beginning of the written text that does not hold the symbol
marks begin with was kept. -/
theorem renders_eq_append {a : α} (hmark : mark.head? = some a) (ha : opens a)
    (hz : ∀ c ∈ z, ¬opens c) (h : renders mark ps = z ++ v) :
    ∃ ps', ps = z.map keep ++ ps' ∧ renders mark ps' = v := by
  induction z generalizing ps with
  | nil => exact ⟨ps, rfl, h⟩
  | cons c z ih =>
    rcases ps with - | ⟨p, ps⟩
    · simp at h
    · rcases p with x | d
      · obtain ⟨rfl, hrest⟩ : x = c ∧ renders mark ps = z ++ v := by simpa using h
        obtain ⟨ps', rfl, hv⟩ := ih (fun c hc => hz c (List.mem_cons_of_mem _ hc)) hrest
        exact ⟨ps', rfl, hv⟩
      · rcases mark with - | ⟨b, mark⟩
        · simp at hmark
        · obtain rfl : b = a := by simpa using hmark
          obtain ⟨rfl, -⟩ : b = c ∧ _ := by simpa using h
          exact absurd ha (hz b List.mem_cons_self)

/-- A run anywhere in the written text that holds neither the symbol marks
begin with nor the one they end with was kept, or is a run of the mark. -/
theorem renders_eq_append₃ {a b : α} {mid : List α} {closes : α → Prop}
    (hmark : mark = a :: (mid ++ [b])) (ha : opens a) (hb : closes b) {c : α}
    (hz : ∀ x ∈ c :: z, ¬opens x ∧ ¬closes x) (h : renders mark ps = u ++ (c :: z ++ v)) :
    (∃ pu pv, ps = pu ++ (c :: z).map keep ++ pv ∧ renders mark pu = u ∧ renders mark pv = v) ∨
      c :: z <:+: mid := by
  rcases renders_eq_append_cons (by simpa using h) with
    ⟨pu, pv, rfl, hu, hv⟩ | ⟨pu, d, pv, as, bs, rfl, hab, hu, hv⟩
  · obtain ⟨pv', rfl, hv'⟩ := renders_eq_append (a := a) (by simp [hmark]) ha
      (fun x hx => (hz x (List.mem_cons_of_mem _ hx)).1) hv
    exact Or.inl ⟨pu, pv', by simp, hu, hv'⟩
  · refine Or.inr ?_
    rw [hmark] at hab
    rcases as with - | ⟨a', as⟩
    · obtain ⟨rfl, -⟩ : a = c ∧ _ := by simpa using hab
      exact absurd ha (hz a List.mem_cons_self).1
    · obtain ⟨rfl, hmid⟩ : a = a' ∧ mid ++ [b] = as ++ c :: bs := by simpa using hab
      -- the mark closes before the run can leave it
      have hclose : b ∉ z := fun hmem => (hz b (List.mem_cons_of_mem _ hmem)).2 hb
      have hcb : c ≠ b := fun hcb => (hz c List.mem_cons_self).2 (hcb ▸ hb)
      obtain ⟨bs', rfl⟩ : ∃ bs', bs = bs' ++ [b] := by
        rcases List.eq_nil_or_concat bs with rfl | ⟨bs', x, rfl⟩
        · have hlast := congrArg List.getLast? hmid
          simp at hlast
          exact absurd hlast.symm hcb
        · have hcat : mid ++ [b] = (as ++ c :: bs') ++ [x] := by simpa using hmid
          obtain rfl : b = x := by simpa using List.append_inj_right' hcat rfl
          exact ⟨bs', List.concat_eq_append⟩
      have hmid' : mid = as ++ c :: bs' := by
        have hcat : mid ++ [b] = (as ++ c :: bs') ++ [b] := by simpa using hmid
        exact List.append_cancel_right hcat
      have hz' : z <+: bs' := by
        rw [List.append_assoc, List.singleton_append] at hv
        rcases List.append_eq_append_iff.mp hv with ⟨w, hw, -⟩ | ⟨w, hw, hrest⟩
        · exact ⟨w, hw.symm⟩
        · rcases w with - | ⟨x, w⟩
          · exact ⟨[], by simpa using hw⟩
          · obtain ⟨rfl, -⟩ : x = b ∧ _ := by simpa using hrest.symm
            exact absurd (by rw [hw]; simp) hclose
      obtain ⟨w, rfl⟩ := hz'
      exact ⟨as, w, by rw [hmid']; simp⟩

end Runs

/-! ### Sweeping under a map -/

section Map

/-- The same piece, of other symbols. -/
def map (f : α → β) : Piece α → Piece β
  | keep a => keep (f a)
  | cut d => cut (d.map f)

/-- Walks commute with a change of symbols that the matcher does not see. -/
theorem sweepFrom_map (m : List β → Option (Nat × Nat)) (f : α → β) (n : Nat) (s : List α) :
    sweepFrom m n (s.map f) = (sweepFrom (fun t => m (t.map f)) n s).map (map f) := by
  induction s generalizing n with
  | nil => simp [sweepFrom]
  | cons c s ih =>
    rcases n with - | n
    · rw [List.map_cons, sweepFrom, sweepFrom, ← List.map_cons]
      rcases m ((c :: s).map f) with - | ⟨k, d⟩
      · simp [ih, map]
      · simp only [List.map_append, List.map_cons, ih]
        simp [map, List.map_take, List.map_drop, Function.comp_def]
    · rw [List.map_cons, sweepFrom, sweepFrom, ih]

theorem renders_map (mark : List α) (f : α → β) (ps : List (Piece α)) :
    renders (mark.map f) (ps.map (map f)) = (renders mark ps).map f := by
  induction ps with
  | nil => rfl
  | cons p ps ih => rcases p with a | d <;> simp [map, ih]

end Map

end Piece
