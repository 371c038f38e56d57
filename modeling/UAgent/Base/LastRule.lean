/-
UAgent/Base/LastRule.lean

A list of rules of which the last one that applies decides.  Rules come in
blocks that all say the same, and a block is worth what its rules apply to
(`verdict_of_forall`).
-/
import Mathlib.Data.List.Basic

namespace LastRule

variable {ρ : Type*} (applies allows : ρ → Bool)

/-- What the rules come to, where `start` is the answer without them. -/
def verdict (start : Bool) (rules : List ρ) : Bool :=
  rules.foldl (fun answer rule => if applies rule then allows rule else answer) start

@[simp] theorem verdict_nil (start : Bool) : verdict applies allows start [] = start := rfl

theorem verdict_cons (start : Bool) (rule : ρ) (rules : List ρ) :
    verdict applies allows start (rule :: rules) =
      verdict applies allows (if applies rule then allows rule else start) rules := rfl

theorem verdict_append (start : Bool) (a b : List ρ) :
    verdict applies allows start (a ++ b) =
      verdict applies allows (verdict applies allows start a) b := List.foldl_append

variable {applies allows} {rules : List ρ}

/-- Rules that all say the same. -/
theorem verdict_of_forall (answer : Bool) (h : ∀ rule ∈ rules, allows rule = answer)
    (start : Bool) :
    verdict applies allows start rules = if rules.any applies then answer else start := by
  induction rules generalizing start with
  | nil => rfl
  | cons rule rules ih =>
    rw [verdict_cons, ih (fun r hr => h r (List.mem_cons_of_mem rule hr)), List.any_cons,
      h rule List.mem_cons_self]
    cases applies rule <;> cases rules.any applies <;> rfl

/-- Rules that do not apply. -/
theorem verdict_of_not (h : ∀ rule ∈ rules, applies rule = false) (start : Bool) :
    verdict applies allows start rules = start := by
  induction rules generalizing start with
  | nil => rfl
  | cons rule rules ih =>
    rw [verdict_cons, h rule List.mem_cons_self]
    exact ih (fun r hr => h r (List.mem_cons_of_mem rule hr)) start

end LastRule
