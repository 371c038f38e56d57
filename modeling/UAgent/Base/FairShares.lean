/-
UAgent/Base/FairShares.lean

A budget shared out fairly.  Demands are taken from the smallest up: one that
is within an equal share of what is left is met, and from the first that is not
on each gets an equal share, the first of them one more while there is a
remainder.

Main result: `fill_eq`.  What a demand gets is the smaller of the demand and its
`share`, which looks at no order of filling: the greatest level at which all of
the demands, cut off there, are within the budget, and one more for the first
of those beyond it as long as the budget lasts.
-/
import Mathlib.Algebra.BigOperators.Group.List.Basic
import Mathlib.Algebra.Order.BigOperators.Group.List
import Mathlib.Algebra.Ring.Nat
import Mathlib.Data.Nat.Find
import Mathlib.Tactic.Ring

namespace FairShares

variable {ι : Type*}

/-- What each gets where all get the same, the first ones one more. -/
def divide (share extra : Nat) : List (ι × Nat) → List (ι × Nat)
  | [] => []
  | (i, _) :: rest => (i, if 0 < extra then share + 1 else share) :: divide share (extra - 1) rest

/-- The shares of demands, the smallest first. -/
def fill (remaining : Nat) : List (ι × Nat) → List (ι × Nat)
  | [] => []
  | (i, size) :: rest =>
    if size ≤ remaining / (rest.length + 1) then (i, size) :: fill (remaining - size) rest
    else divide (remaining / (rest.length + 1)) (remaining % (rest.length + 1)) ((i, size) :: rest)

/-! ### Levels -/

/-- What the demands come to when they are cut off at a level. -/
def taken (level : Nat) (demands : List (ι × Nat)) : Nat := (demands.map fun d => min d.2 level).sum

/-- The greatest level whose demands are within the budget. -/
def level (budget : Nat) (demands : List (ι × Nat)) : Nat :=
  Nat.findGreatest (fun l => taken l demands ≤ budget) budget

variable (before : ι × Nat → ι × Nat → Prop) [DecidableRel before]

/-- The demands beyond a level that come before one. -/
def ahead (l : Nat) (demands : List (ι × Nat)) (d : ι × Nat) : Nat :=
  demands.countP fun e => l < e.2 ∧ before e d

/-- The share of a demand: the level, and one more for those that come first
while something is left. -/
def share (budget : Nat) (demands : List (ι × Nat)) (d : ι × Nat) : Nat :=
  if ahead before (level budget demands) demands d <
      budget - taken (level budget demands) demands then level budget demands + 1
  else level budget demands

section Levels

variable {budget l : Nat} {demands : List (ι × Nat)} {d : ι × Nat}

@[simp] theorem taken_cons (l : Nat) (d : ι × Nat) (demands : List (ι × Nat)) :
    taken l (d :: demands) = min d.2 l + taken l demands := rfl

theorem taken_mono (demands : List (ι × Nat)) {l l' : Nat} (h : l ≤ l') :
    taken l demands ≤ taken l' demands :=
  List.sum_le_sum fun d _ => min_le_min_left d.2 h

/-- Where all demands are beyond a level it is taken of each. -/
theorem taken_eq (h : ∀ d ∈ demands, l ≤ d.2) : taken l demands = l * demands.length := by
  induction demands with
  | nil => rfl
  | cons d demands ih =>
    have hfirst := h d List.mem_cons_self
    rw [taken_cons, ih fun d' hd' => h d' (List.mem_cons_of_mem d hd'), List.length_cons,
      min_eq_right hfirst, Nat.mul_add_one, Nat.add_comm]

/-- A level that more could be taken at is taken of some demand. -/
theorem le_taken (h : taken l demands < taken (l + 1) demands) : l ≤ taken l demands := by
  induction demands with
  | nil => exact absurd h (Nat.lt_irrefl _)
  | cons d demands ih =>
    rw [taken_cons, taken_cons] at h
    rw [taken_cons]
    by_cases hbeyond : l < d.2
    · omega
    · have hrest := ih (by omega)
      omega

/-- **The level**, by what is taken at it and at the next. -/
theorem level_eq (hwithin : taken l demands ≤ budget) (hover : budget < taken (l + 1) demands) :
    level budget demands = l := by
  rw [level, Nat.findGreatest_eq_iff]
  refine ⟨(le_taken (hwithin.trans_lt hover)).trans hwithin, fun _ => hwithin, fun n hn _ => ?_⟩
  exact not_le.mpr (hover.trans_le (taken_mono demands hn))

/-- A budget that is enough has a level above every demand. -/
theorem le_level (h : (demands.map Prod.snd).sum ≤ budget) (hd : d ∈ demands) :
    d.2 ≤ level budget demands := by
  have hlevel : level budget demands = budget := by
    rw [level, Nat.findGreatest_eq_iff]
    refine ⟨le_rfl, fun _ => le_trans (List.sum_le_sum fun e _ => min_le_left e.2 budget) h,
      fun n hn hle => absurd hle (not_le.mpr hn)⟩
  rw [hlevel]
  exact (List.single_le_sum (fun _ _ => Nat.zero_le _) _ (List.mem_map_of_mem hd)).trans h

theorem level_le_share : level budget demands ≤ share before budget demands d := by
  unfold share
  split_ifs
  · exact Nat.le_succ _
  · exact le_rfl

/-- A share does not depend on the order the demands are listed in. -/
theorem share_perm {demands' : List (ι × Nat)} (h : demands.Perm demands') :
    share before budget demands d = share before budget demands' d := by
  have htaken : ∀ l, taken l demands = taken l demands' := fun l => (h.map _).sum_eq
  have hlevel : level budget demands = level budget demands' := by
    unfold level
    simp only [htaken]
  unfold share ahead
  rw [hlevel, htaken, h.countP_eq]

end Levels

/-! ### Filling -/

variable {before} {remaining equal extra : Nat} {demands : List (ι × Nat)}

/-- What an equal division gives: one more to those with few before them. -/
theorem divide_eq (hsorted : demands.Pairwise before) (hirrefl : ∀ d, ¬before d d)
    (hasymm : ∀ d e, before d e → ¬before e d) :
    divide equal extra demands = demands.map fun d =>
      (d.1, if demands.countP (fun e => before e d) < extra then equal + 1 else equal) := by
  induction demands generalizing extra with
  | nil => rfl
  | cons d demands ih =>
    obtain ⟨hfirst, hrest⟩ := List.pairwise_cons.mp hsorted
    have hnone : (d :: demands).countP (fun e => before e d) = 0 := by
      rw [List.countP_eq_zero]
      intro e he
      rcases List.mem_cons.mp he with rfl | he
      · simpa using hirrefl e
      · simpa using hasymm d e (hfirst e he)
    rw [divide, List.map_cons, hnone, ih hrest]
    congr 1
    refine List.map_congr_left fun e he => ?_
    have hmore : (d :: demands).countP (fun e' => before e' e) =
        demands.countP (fun e' => before e' e) + 1 := by
      rw [List.countP_cons_of_pos]
      simpa using hfirst e he
    rw [hmore]
    congr 1
    refine if_congr ?_ rfl rfl
    omega

theorem sum_divide (hextra : extra ≤ demands.length) :
    ((divide equal extra demands).map Prod.snd).sum = equal * demands.length + extra := by
  induction demands generalizing extra with
  | nil =>
    obtain rfl : extra = 0 := by simpa using hextra
    rfl
  | cons d demands ih =>
    rw [List.length_cons] at hextra ⊢
    rw [divide, List.map_cons, List.sum_cons, ih (by omega), Nat.mul_add_one]
    show (if 0 < extra then equal + 1 else equal) + _ = _
    split_ifs <;> omega

/-- A budget that is exceeded is used up. -/
theorem sum_fill (hover : remaining < (demands.map Prod.snd).sum) :
    ((fill remaining demands).map Prod.snd).sum = remaining := by
  induction demands generalizing remaining with
  | nil => exact absurd hover (Nat.not_lt_zero _)
  | cons d demands ih =>
    obtain ⟨i, size⟩ := d
    rw [List.map_cons, List.sum_cons] at hover
    rw [fill]
    by_cases hsmall : size ≤ remaining / (demands.length + 1)
    · have hwithin : size ≤ remaining := hsmall.trans (Nat.div_le_self _ _)
      rw [if_pos hsmall, List.map_cons, List.sum_cons, ih (by omega)]
      exact Nat.add_sub_cancel' hwithin
    · have hextra : remaining % (demands.length + 1) < demands.length + 1 :=
        Nat.mod_lt _ (Nat.succ_pos _)
      rw [if_neg hsmall, sum_divide (by rw [List.length_cons]; omega), List.length_cons, Nat.mul_comm]
      exact Nat.div_add_mod _ _

/-- Demands in order that exceed a budget are met up to a level, no less than an
equal share of it, that takes what is in the budget but for less than one more
of each demand beyond it. -/
theorem fill_level (hsorted : demands.Pairwise before) (hirrefl : ∀ d, ¬before d d)
    (hasymm : ∀ d e, before d e → ¬before e d) (hle : ∀ d e, before d e → d.2 ≤ e.2)
    (hover : remaining < (demands.map Prod.snd).sum) :
    ∃ l extra, remaining / demands.length ≤ l ∧ taken l demands + extra = remaining ∧
      remaining < taken (l + 1) demands ∧
      fill remaining demands = demands.map fun d =>
        (d.1, min d.2 (if ahead before l demands d < extra then l + 1 else l)) := by
  induction demands generalizing remaining with
  | nil => exact absurd hover (Nat.not_lt_zero _)
  | cons d demands ih =>
    obtain ⟨i, size⟩ := d
    rw [List.map_cons, List.sum_cons] at hover
    obtain ⟨hfirst, hrest⟩ := List.pairwise_cons.mp hsorted
    have hdivision := Nat.div_add_mod remaining (demands.length + 1)
    have hextra : remaining % (demands.length + 1) < demands.length + 1 :=
      Nat.mod_lt _ (Nat.succ_pos _)
    rw [fill, List.length_cons]
    by_cases hsmall : size ≤ remaining / (demands.length + 1)
    · -- It is met, and what is left for each of the others grows no smaller.
      have hwithin : size ≤ remaining := hsmall.trans (Nat.div_le_self _ _)
      obtain ⟨l, extra, hlevel, htaken, hnext, hfill⟩ := @ih (remaining - size) hrest (by omega)
      have hpos : 0 < demands.length := by
        rw [List.length_pos_iff]
        rintro rfl
        rw [List.map_nil, List.sum_nil] at hover
        omega
      have hgrows : remaining / (demands.length + 1) ≤ (remaining - size) / demands.length := by
        rw [Nat.le_div_iff_mul_le hpos]
        have hexpand : (demands.length + 1) * (remaining / (demands.length + 1)) =
            remaining / (demands.length + 1) * demands.length +
              remaining / (demands.length + 1) := by ring
        omega
      have hmet : size ≤ l := hsmall.trans (hgrows.trans hlevel)
      have hahead : ∀ e, ahead before l ((i, size) :: demands) e = ahead before l demands e := by
        intro e
        rw [ahead, List.countP_cons_of_neg]
        · rfl
        · simp [not_lt.mpr hmet]
      refine ⟨l, extra, hgrows.trans hlevel, ?_, ?_, ?_⟩
      · rw [taken_cons, min_eq_left hmet]
        omega
      · rw [taken_cons, min_eq_left (by omega : size ≤ l + 1)]
        omega
      · rw [if_pos hsmall, hfill, List.map_cons]
        simp only [hahead]
        congr 1
        rw [min_eq_left]
        split_ifs <;> omega
    · rw [if_neg hsmall]
      rw [not_le] at hsmall
      have hlarge : ∀ e ∈ (i, size) :: demands, remaining / (demands.length + 1) + 1 ≤ e.2 := by
        intro e he
        rcases List.mem_cons.mp he with rfl | he
        · exact hsmall
        · exact hsmall.trans_le (hle _ e (hfirst e he))
      refine ⟨_, remaining % (demands.length + 1), le_rfl, ?_, ?_, ?_⟩
      · rw [taken_eq fun e he => (Nat.le_succ _).trans (hlarge e he), List.length_cons, Nat.mul_comm]
        exact hdivision
      · rw [taken_eq hlarge, List.length_cons, Nat.add_one_mul, Nat.mul_comm]
        omega
      · rw [divide_eq hsorted hirrefl hasymm]
        refine List.map_congr_left fun e he => ?_
        have hbeyond := hlarge e he
        have hahead : ahead before (remaining / (demands.length + 1)) ((i, size) :: demands) e =
            ((i, size) :: demands).countP fun e' => before e' e := by
          unfold ahead
          refine List.countP_congr fun e' he' => ?_
          have hbeyond' := hlarge e' he'
          simp only [decide_eq_true_eq]
          exact ⟨fun h => h.2, fun h => ⟨by omega, h⟩⟩
        rw [hahead, min_eq_right]
        split_ifs <;> omega

/-- **Fair shares.**  Of demands in order that exceed a budget each gets its
share, or what it asks for. -/
theorem fill_eq (hsorted : demands.Pairwise before) (hirrefl : ∀ d, ¬before d d)
    (hasymm : ∀ d e, before d e → ¬before e d) (hle : ∀ d e, before d e → d.2 ≤ e.2)
    (hover : remaining < (demands.map Prod.snd).sum) :
    fill remaining demands =
      demands.map fun d => (d.1, min d.2 (share before remaining demands d)) := by
  obtain ⟨l, extra, -, htaken, hnext, hfill⟩ := fill_level hsorted hirrefl hasymm hle hover
  have hlevel : level remaining demands = l := level_eq (by omega) hnext
  have hextra : remaining - taken l demands = extra := by omega
  rw [hfill]
  unfold share
  rw [hlevel, hextra]

end FairShares
