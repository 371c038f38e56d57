/-
UAgent/Base/Run.lean

Runs of a system that takes one event after another, and the rule of
invariants for them: what holds at the start and is kept by every step holds
of every state a run reaches.  A run may be restricted to the steps that meet
a condition `ok`, which looks at the state before the step.
-/
import Mathlib.Logic.Basic

variable {σ ε : Type*}

/-- The states reached from `s₀` by events that meet `ok`. -/
inductive Run (step : σ → ε → σ) (ok : σ → ε → Prop) (s₀ : σ) : σ → Prop
  | start : Run step ok s₀ s₀
  | next {s : σ} (e : ε) : Run step ok s₀ s → ok s e → Run step ok s₀ (step s e)

namespace Run

variable {step : σ → ε → σ} {ok : σ → ε → Prop} {s₀ s : σ}

/-- The rule of invariants. -/
theorem invariant {I : σ → Prop} (start : I s₀) (next : ∀ s e, I s → ok s e → I (step s e))
    (h : Run step ok s₀ s) : I s := by
  induction h with
  | start => exact start
  | next e _ hok ih => exact next _ e ih hok

/-- A run goes on from where another ended. -/
theorem trans {s₁ : σ} (h₁ : Run step ok s₀ s₁) (h₂ : Run step ok s₁ s) : Run step ok s₀ s := by
  induction h₂ with
  | start => exact h₁
  | next e _ hok ih => exact .next e ih hok

/-- The events of a list all meet the condition, one after another. -/
def AllOk (step : σ → ε → σ) (ok : σ → ε → Prop) (s : σ) : List ε → Prop
  | [] => True
  | e :: events => ok s e ∧ AllOk step ok (step s e) events

instance decidableAllOk [∀ s e, Decidable (ok s e)] (s : σ) :
    (events : List ε) → Decidable (AllOk step ok s events)
  | [] => isTrue trivial
  | e :: events =>
    let _ := decidableAllOk (step s e) events
    inferInstanceAs (Decidable (_ ∧ _))

theorem allOk_of_forall {events : List ε} (h : ∀ e ∈ events, ∀ s, ok s e) (s : σ) :
    AllOk step ok s events := by
  induction events generalizing s with
  | nil => trivial
  | cons e events ih =>
    exact ⟨h e List.mem_cons_self s, ih (fun e' he => h e' (List.mem_cons_of_mem e he)) _⟩

theorem allOk_append {s : σ} {a b : List ε} :
    AllOk step ok s (a ++ b) ↔ AllOk step ok s a ∧ AllOk step ok (a.foldl step s) b := by
  induction a generalizing s with
  | nil => exact ⟨fun h => ⟨trivial, h⟩, And.right⟩
  | cons e a ih => rw [List.cons_append, AllOk, AllOk, ih, and_assoc, List.foldl_cons]

/-- A list of events that meet the condition is a run. -/
theorem of_allOk {s : σ} {events : List ε} (h : AllOk step ok s events) :
    Run step ok s (events.foldl step s) := by
  induction events generalizing s with
  | nil => exact .start
  | cons e events ih => exact trans (.next e .start h.1) (ih h.2)

/-- Where a step keeps the invariant exactly when it meets the condition, a
list of events meets it exactly when every state on the way has the
invariant. -/
theorem forall_isPrefix_iff_allOk {I : σ → Prop} {s : σ} {events : List ε}
    (next : ∀ s e, I s → (I (step s e) ↔ ok s e)) (start : I s) :
    (∀ taken, taken <+: events → I (taken.foldl step s)) ↔ AllOk step ok s events := by
  induction events generalizing s with
  | nil =>
    refine iff_of_true (fun taken htaken => ?_) trivial
    rw [List.prefix_nil.mp htaken]
    exact start
  | cons e events ih =>
    constructor
    · intro h
      have hfirst : I (step s e) := h [e] ⟨events, rfl⟩
      refine ⟨(next s e start).mp hfirst, (ih hfirst).mp fun taken htaken => ?_⟩
      exact h (e :: taken) ((List.prefix_cons_inj e).mpr htaken)
    · rintro ⟨hok, hrest⟩ taken htaken
      cases taken with
      | nil => exact start
      | cons e' taken =>
        obtain ⟨rfl, hmore⟩ := List.cons_prefix_cons.mp htaken
        exact (ih ((next s e' start).mpr hok)).mpr hrest taken hmore

end Run
