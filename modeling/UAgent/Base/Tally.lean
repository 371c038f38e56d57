/-
UAgent/Base/Tally.lean

Values that add up reports.

`Tally zero add view xs a` says that `a` is the reports `xs` added up, each of
them once, in whatever order and whatever grouping.  The sum need not be
associative or commutative, as sums of doubles are not; `view` relates a value
to another way of holding it, such as one that was written out and read again.
What is read off a tally is read with a counter, a number that adds up under
`add` as far as it can be held (`Tally.counter`).
-/
import Mathlib.Algebra.BigOperators.Group.List.Basic
import Mathlib.Algebra.Order.BigOperators.Group.List
import Mathlib.Algebra.Ring.Int.Defs
import Mathlib.Data.List.Perm.Basic

/-- `a` is the reports of a list, added up once each. -/
inductive Tally {α : Type*} (zero : α) (add : α → α → α) (view : α → α → Prop) :
    List α → α → Prop
  | zero : Tally zero add view [] zero
  | one (x : α) : Tally zero add view [x] x
  | add {xs ys : List α} {a b : α} :
    Tally zero add view xs a → Tally zero add view ys b → Tally zero add view (xs ++ ys) (add a b)
  | view {xs : List α} {a b : α} :
    view a b → Tally zero add view xs a → Tally zero add view xs b
  | perm {xs ys : List α} {a : α} :
    xs.Perm ys → Tally zero add view xs a → Tally zero add view ys a

namespace Tally

variable {α : Type*} {zero : α} {add : α → α → α} {view : α → α → Prop}
variable {xs ys : List α} {a b : α}

/-- One more report. -/
theorem snoc (h : Tally zero add view xs a) (x : α) : Tally zero add view (xs ++ [x]) (add a x) :=
  h.add (.one x)

/-- The report that nothing was spent adds nothing to the list. -/
theorem idle (h : Tally zero add view xs a) : Tally zero add view xs (add a zero) := by
  have hadd := h.add Tally.zero
  rwa [List.append_nil] at hadd

/-- Parts that are added one after another. -/
theorem foldl {ι : Type*} {parts : List ι} {reports : ι → List α} {value : ι → α}
    (hparts : ∀ i ∈ parts, Tally zero add view (reports i) (value i))
    (h : Tally zero add view xs a) :
    Tally zero add view (xs ++ parts.flatMap reports)
      (parts.foldl (fun a i => add a (value i)) a) := by
  induction parts generalizing xs a with
  | nil =>
    rw [List.flatMap_nil, List.append_nil]
    exact h
  | cons i parts ih =>
    rw [List.flatMap_cons, ← List.append_assoc]
    exact ih (fun j hj => hparts j (List.mem_cons_of_mem i hj))
      (h.add (hparts i List.mem_cons_self))

/-! ### Maps of tallies -/

/-- What a map holds for some reports: nothing when there are none. -/
def Found (zero : α) (add : α → α → α) (view : α → α → Prop) (xs : List α) : Option α → Prop
  | none => xs = []
  | some a => Tally zero add view xs a

theorem Found.tally {found : Option α} (h : Found zero add view xs found) :
    Tally zero add view xs (found.getD zero) := by
  cases found with
  | none =>
    obtain rfl : xs = [] := h
    exact .zero
  | some a => exact h

/-- What is found is added to. -/
theorem Found.more {found : Option α} (h : Found zero add view xs found)
    (hb : Tally zero add view ys b) :
    Found zero add view (xs ++ ys) (some (add (found.getD zero) b)) :=
  Tally.add h.tally hb

/-! ### Counters -/

/-- `f` counts under `add`, up to a bound. -/
structure Counter (zero : α) (add : α → α → α) (view : α → α → Prop) (bound : Int)
    (f : α → Int) : Prop where
  nonneg : 0 ≤ bound
  zero : f zero = 0
  add : ∀ a b, f (add a b) = min (max (f a) 0 + max (f b) 0) bound
  view : ∀ a b, view a b → f b = min (max (f a) 0) bound

/-- **A tally counts every report**, as far as its bound lets it. -/
theorem counter {bound : Int} {f : α → Int} (hf : Counter zero add view bound f)
    (h : Tally zero add view xs a) :
    min (max (f a) 0) bound = min ((xs.map fun x => max (f x) 0).sum) bound := by
  have hbound := hf.nonneg
  have hsum : ∀ xs : List α, 0 ≤ (xs.map fun x => max (f x) 0).sum := by
    intro xs
    refine List.sum_nonneg ?_
    intro n hn
    rcases List.mem_map.mp hn with ⟨x, -, rfl⟩
    exact le_max_right _ _
  induction h with
  | zero =>
    rw [hf.zero]
    rfl
  | one x => rw [List.map_singleton, List.sum_singleton]
  | @add xs ys a b _ _ iha ihb =>
    rw [List.map_append, List.sum_append, hf.add]
    have := hsum xs
    have := hsum ys
    omega
  | @view xs a b hview _ ih =>
    rw [hf.view a b hview]
    have := hsum xs
    omega
  | perm hperm _ ih =>
    rw [ih, (hperm.map _).sum_eq]

end Tally

/-! ### Reports by key -/

namespace List

variable {α κ : Type*} [DecidableEq κ]

/-- Two filters that no element meets together. -/
theorem filter_append_filter_perm {p q : α → Bool} {l : List α}
    (h : ∀ x ∈ l, p x = true → q x = false) :
    (l.filter p ++ l.filter q).Perm (l.filter fun x => p x || q x) := by
  induction l with
  | nil => exact .refl _
  | cons x l ih =>
    have hrest := ih fun y hy => h y (mem_cons_of_mem x hy)
    cases hp : p x with
    | true =>
      have hq := h x mem_cons_self hp
      simpa [hp, hq] using hrest.cons x
    | false =>
      cases hq : q x with
      | true =>
        have hmiddle : (l.filter p ++ x :: l.filter q).Perm
            (x :: (l.filter p ++ l.filter q)) := perm_middle
        simpa [hp, hq] using hmiddle.trans (hrest.cons x)
      | false => simpa [hp, hq] using hrest

/-- A list taken apart by the keys of its elements. -/
theorem flatMap_filter_perm (f : α → κ) {keys : List κ} (hkeys : keys.Nodup) (l : List α) :
    (keys.flatMap fun k => l.filter fun x => f x = k).Perm (l.filter fun x => f x ∈ keys) := by
  induction keys with
  | nil => simp
  | cons k keys ih =>
    rw [nodup_cons] at hkeys
    rw [flatMap_cons]
    refine ((ih hkeys.2).append_left _).trans ?_
    refine (filter_append_filter_perm fun x _ hx => ?_).trans ?_
    · have hk : f x = k := of_decide_eq_true hx
      exact decide_eq_false (hk ▸ hkeys.1)
    · refine .of_eq (congrArg (fun p => l.filter p) ?_)
      funext x
      simp

end List
