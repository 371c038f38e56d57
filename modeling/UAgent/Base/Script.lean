/-
UAgent/Base/Script.lean

Programs that change durable state by one atomic operation after another,
and may be cut off between any two of them.

A script says, for the state it starts from, which operations it performs and
why it stopped, if it did.  Its specification is a triple with three
conditions: what holds before it, what holds wherever it is cut off, and what
holds after it has run to its end without stopping.  The rules below compose
such triples along the script, so that a statement about every crash point is
proved once for each operation.
-/
import Mathlib.Logic.Basic
import Mathlib.Data.List.Basic

/-- What a program does from a given state: its operations, in order, and the
reason it stopped early. -/
abbrev Script (σ ω ε : Type*) := σ → List ω × Option ε

namespace Script

variable {σ ω ε α : Type*} (apply : σ → ω → σ)

/-- Some operations are carried out. -/
def perform (ops : List ω) (s : σ) : σ := ops.foldl apply s

/-- Nothing is done. -/
def done : Script σ ω ε := fun _ => ([], none)

/-- The program stops. -/
def stop (e : ε) : Script σ ω ε := fun _ => ([], some e)

/-- One script after another. -/
def andThen (first second : Script σ ω ε) : Script σ ω ε := fun s =>
  match first s with
  | (ops, some e) => (ops, some e)
  | (ops, none) =>
    let rest := second (perform apply ops s)
    (ops ++ rest.1, rest.2)

/-- A loop over a list, left at the first script that stops. -/
def each (body : α → Script σ ω ε) : List α → Script σ ω ε
  | [] => done
  | a :: as => andThen apply (body a) (each body as)

/-- The state after a script. -/
def final (script : Script σ ω ε) (s : σ) : σ := perform apply (script s).1 s

/-- The state of a script cut off after `n` operations. -/
def cut (script : Script σ ω ε) (n : Nat) (s : σ) : σ := perform apply ((script s).1.take n) s

@[simp] theorem perform_nil (s : σ) : perform apply ([] : List ω) s = s := rfl

theorem perform_append (ops ops' : List ω) (s : σ) :
    perform apply (ops ++ ops') s = perform apply ops' (perform apply ops s) :=
  List.foldl_append ..

/-! ### Sequences -/

section Sequence

variable {apply} {first second : Script σ ω ε}

/-- When the first script stops, both do. -/
theorem andThen_of_stops {s : σ} (h : (first s).2 ≠ none) :
    Script.andThen apply first second s = first s := by
  rcases hf : first s with ⟨ops, err⟩
  rcases err with - | e
  · simp [hf] at h
  · simp [Script.andThen, hf]

theorem andThen_of_ends {s : σ} (h : (first s).2 = none) :
    Script.andThen apply first second s =
      ((first s).1 ++ (second (final apply first s)).1, (second (final apply first s)).2) := by
  rcases hf : first s with ⟨ops, err⟩
  obtain rfl : err = none := by simpa [hf] using h
  simp [Script.andThen, final, hf]

/-- A sequence is cut off in its first script or, that having ended, in its
second. -/
theorem cut_andThen (apply : σ → ω → σ) (first second : Script σ ω ε) (n : Nat) (s : σ) :
    (∃ k, cut apply (Script.andThen apply first second) n s = cut apply first k s) ∨
      (first s).2 = none ∧ ∃ k, cut apply (Script.andThen apply first second) n s =
        cut apply second k (final apply first s) := by
  by_cases hf : (first s).2 = none
  · rw [cut, andThen_of_ends hf, List.take_append, perform_append]
    rcases Nat.le_total n (first s).1.length with hn | hn
    · refine .inl ⟨n, ?_⟩
      have hzero : n - (first s).1.length = 0 := by omega
      rw [hzero, List.take_zero, perform_nil, cut]
    · refine .inr ⟨hf, n - (first s).1.length, ?_⟩
      rw [List.take_of_length_le hn]
      rfl
  · exact .inl ⟨n, by rw [cut, andThen_of_stops hf, cut]⟩

end Sequence

/-! ### Triples -/

/-- From a state that meets `P`, the script does not stop, meets `C` wherever
it is cut off, and ends in `Q`. -/
def Triple (P : σ → Prop) (script : Script σ ω ε) (C Q : σ → Prop) : Prop :=
  ∀ s, P s → (script s).2 = none ∧ (∀ n, C (cut apply script n s)) ∧ Q (final apply script s)

variable {apply} {P P' C C' Q Q' R : σ → Prop} {first second script : Script σ ω ε}

namespace Triple

theorem consequence (h : Triple apply P script C Q) (hP : ∀ s, P' s → P s) (hC : ∀ s, C s → C' s)
    (hQ : ∀ s, Q s → Q' s) : Triple apply P' script C' Q' := fun s hs =>
  let ⟨herr, hcut, hend⟩ := h s (hP s hs)
  ⟨herr, fun n => hC _ (hcut n), hQ _ hend⟩

theorem done (hC : ∀ s, P s → C s) : Triple apply P (Script.done : Script σ ω ε) C P := fun s hs =>
  ⟨rfl, fun n => by simpa [cut, Script.done] using hC s hs, hs⟩

/-- A script of at most one operation. -/
theorem step (hC : ∀ s, P s → C s) (hQC : ∀ s, Q s → C s)
    (h : ∀ s, P s → (script s = ([], none) ∧ Q s) ∨
      ∃ o, script s = ([o], none) ∧ Q (apply s o)) : Triple apply P script C Q := fun s hs => by
  rcases h s hs with ⟨hrun, hQ⟩ | ⟨o, hrun, hQ⟩
  · refine ⟨by rw [hrun], fun n => ?_, ?_⟩
    · simpa [cut, hrun] using hC s hs
    · simpa [final, hrun] using hQ
  · refine ⟨by rw [hrun], fun n => ?_, ?_⟩
    · rcases n with - | n
      · simpa [cut] using hC s hs
      · simpa [cut, hrun, perform] using hQC _ hQ
    · simpa [final, hrun, perform] using hQ

/-- Sequential composition: a cut is in the first script or in the second. -/
theorem andThen (h₁ : Triple apply P first C R) (h₂ : Triple apply R second C Q) :
    Triple apply P (Script.andThen apply first second) C Q := fun s hs => by
  obtain ⟨herr, hcut, hmid⟩ := h₁ s hs
  obtain ⟨herr', hcut', hend⟩ := h₂ _ hmid
  refine ⟨by rw [andThen_of_ends herr]; exact herr', fun n => ?_, ?_⟩
  · rcases cut_andThen apply first second n s with ⟨k, heq⟩ | ⟨-, k, heq⟩
    · exact heq ▸ hcut k
    · exact heq ▸ hcut' k
  · rw [final, andThen_of_ends herr, perform_append]
    exact hend

/-- The rule of loops: `I as` holds before the entries `as` are treated. -/
theorem each {body : α → Script σ ω ε} {I : List α → σ → Prop} (hC : ∀ s, I [] s → C s)
    (hbody : ∀ a as, Triple apply (I (a :: as)) (body a) C (I as)) (as : List α) :
    Triple apply (I as) (Script.each apply body as) C (I []) := by
  induction as with
  | nil => exact done hC
  | cons a as ih => exact (hbody a as).andThen ih

/-- A triple for each value of something the states of `P` determine. -/
theorem of_exists {P : α → σ → Prop} (h : ∀ a, Triple apply (P a) script C Q) :
    Triple apply (fun s => ∃ a, P a s) script C Q := fun s ⟨a, ha⟩ => h a s ha

/-- In each state of `P` the script is another one that meets the triple. -/
theorem congr (h : ∀ s, P s → ∃ body : Script σ ω ε, script s = body s ∧ ∃ P' : σ → Prop, P' s ∧
    Triple apply P' body C Q) : Triple apply P script C Q := fun s hs => by
  obtain ⟨body, heq, P', hs', hbody⟩ := h s hs
  have hspec := hbody s hs'
  simp only [cut, final, heq] at hspec ⊢
  exact hspec

end Triple

/-- A loop whose entries all do nothing does nothing. -/
theorem each_idle {body : α → Script σ ω ε} {as : List α} {s : σ}
    (h : ∀ a ∈ as, body a s = ([], none)) : Script.each apply body as s = ([], none) := by
  induction as with
  | nil => rfl
  | cons a as ih =>
    rw [Script.each, Script.andThen, h a List.mem_cons_self]
    simp [ih fun b hb => h b (List.mem_cons_of_mem a hb)]

/-! ### Invariants -/

variable (apply) in
/-- What holds of the state before the script holds wherever it is cut off,
whether it stops or not. -/
def Invariant (P : σ → Prop) (script : Script σ ω ε) : Prop :=
  ∀ s, P s → ∀ n, P (cut apply script n s)

theorem Invariant.final (h : Invariant apply P script) {s : σ} (hs : P s) :
    P (Script.final apply script s) := by
  have hcut := h s hs (script s).1.length
  rwa [cut, List.take_length] at hcut

/-- A script of at most one operation. -/
theorem Invariant.step (h : ∀ s, P s → (script s).1 = [] ∨
    ∃ o, (script s).1 = [o] ∧ P (apply s o)) : Invariant apply P script := fun s hs n => by
  rcases h s hs with hnone | ⟨o, hone, hP⟩
  · simpa [cut, hnone] using hs
  · rcases n with - | n
    · simpa [cut] using hs
    · simpa [cut, hone, perform] using hP

theorem Invariant.andThen (h₁ : Invariant apply P first) (h₂ : Invariant apply P second) :
    Invariant apply P (Script.andThen apply first second) := fun s hs n => by
  rcases cut_andThen apply first second n s
    with ⟨k, heq⟩ | ⟨-, k, heq⟩
  · exact heq ▸ h₁ s hs k
  · exact heq ▸ h₂ _ (h₁.final hs) k

theorem Invariant.each {body : α → Script σ ω ε} {as : List α}
    (h : ∀ a ∈ as, Invariant apply P (body a)) :
    Invariant apply P (Script.each apply body as) := by
  induction as with
  | nil => exact fun s hs n => by simpa [Script.each, Script.done, cut] using hs
  | cons a as ih =>
    exact (h a List.mem_cons_self).andThen (ih fun b hb => h b (List.mem_cons_of_mem a hb))

/-! ### Scripts that stop -/

/-- From a state that meets `P`, the script stops. -/
def Stops (P : σ → Prop) (script : Script σ ω ε) : Prop := ∀ s, P s → (script s).2 ≠ none

variable (apply) in
/-- From a state that meets `P`, the script stops or ends in a state that
still does. -/
def Keeps (P : σ → Prop) (script : Script σ ω ε) : Prop :=
  ∀ s, P s → (script s).2 = none → P (final apply script s)

/-- Both parts of a sequence that does not stop do not stop. -/
theorem ends_of_andThen {s : σ} (h : (Script.andThen apply first second s).2 = none) :
    (first s).2 = none ∧ (second (final apply first s)).2 = none := by
  by_cases hf : (first s).2 = none
  · rw [andThen_of_ends hf] at h
    exact ⟨hf, h⟩
  · rw [andThen_of_stops hf] at h
    exact absurd h hf

theorem Keeps.andThen (h₁ : Keeps apply P first) (h₂ : Keeps apply P second) :
    Keeps apply P (Script.andThen apply first second) := fun s hs hend => by
  obtain ⟨hf, hrest⟩ := ends_of_andThen hend
  rw [final, andThen_of_ends hf, perform_append]
  exact h₂ _ (h₁ s hs hf) hrest

theorem Keeps.each {body : α → Script σ ω ε} {as : List α}
    (h : ∀ a ∈ as, Keeps apply P (body a)) : Keeps apply P (Script.each apply body as) := by
  induction as with
  | nil => exact fun s hs _ => hs
  | cons a as ih =>
    exact (h a List.mem_cons_self).andThen (ih fun b hb => h b (List.mem_cons_of_mem a hb))

/-- What one entry of a loop brings about, when the others keep it. -/
theorem each_reaches {body : α → Script σ ω ε} {a : α} {as : List α} (ha : a ∈ as)
    (hP : ∀ b ∈ as, Keeps apply P (body b)) (hQ : ∀ b ∈ as, Keeps apply Q (body b))
    (hreach : ∀ s, P s → (body a s).2 = none → Q (final apply (body a) s)) {s : σ} (hs : P s)
    (hend : (Script.each apply body as s).2 = none) :
    Q (final apply (Script.each apply body as) s) := by
  induction as generalizing s with
  | nil => exact absurd ha List.not_mem_nil
  | cons b as ih =>
    obtain ⟨hfirst, hend⟩ := ends_of_andThen hend
    rw [final, Script.each, andThen_of_ends hfirst, perform_append]
    have hQ' : Keeps apply Q (Script.each apply body as) :=
      .each fun c hc => hQ c (List.mem_cons_of_mem b hc)
    rcases List.mem_cons.mp ha with rfl | ha
    · exact hQ' _ (hreach s hs hfirst) hend
    · exact ih ha (fun c hc => hP c (List.mem_cons_of_mem b hc))
        (fun c hc => hQ c (List.mem_cons_of_mem b hc)) (hP b List.mem_cons_self s hs hfirst) hend

/-- A sequence stops when its second script does, wherever the first leads. -/
theorem Stops.andThen_right (h₁ : ∀ s, P s → (first s).2 = none → Q (final apply first s))
    (h₂ : Stops Q second) : Stops P (Script.andThen apply first second) := fun s hs => by
  by_cases hf : (first s).2 = none
  · rw [andThen_of_ends hf]
    exact h₂ _ (h₁ s hs hf)
  · rw [andThen_of_stops hf]
    exact hf

theorem Stops.andThen_left (h : Stops P first) : Stops P (Script.andThen apply first second) :=
  fun s hs => by
    rw [andThen_of_stops (h s hs)]
    exact h s hs

/-- A loop stops when one entry stops from every state the others keep. -/
theorem Stops.each {body : α → Script σ ω ε} {a : α} {as : List α} (ha : a ∈ as)
    (hkeeps : ∀ b ∈ as, Keeps apply P (body b)) (hstops : Stops P (body a)) :
    Stops P (Script.each apply body as) := by
  induction as with
  | nil => exact absurd ha List.not_mem_nil
  | cons b as ih =>
    rcases List.mem_cons.mp ha with rfl | ha
    · exact hstops.andThen_left
    · exact .andThen_right (hkeeps b List.mem_cons_self)
        (ih ha fun c hc => hkeeps c (List.mem_cons_of_mem b hc))

end Script
