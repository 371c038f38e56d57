/-
UAgent/Core/UsageTally.lean

Usage and statistics that add up reports: what `Usage::Merge` and
`MergeNumericStatistics` come to when every report is merged once, in any
order, in parts, and with what was saved in between and read again.

A counter of a total is the sum of the reports' counters, up to the largest
`int64_t`; a total has usage when one of its reports has.
-/
import UAgent.Base.Tally
import UAgent.Core.Usage

namespace UAgent

open Bytes

/-- What the sum of two costs is known to be: a cost again. -/
class LawfulDoubleSum [DoubleSum] : Prop where
  finite_costSum : ∀ {a b : Double}, finiteNonnegative a = true → finiteNonnegative b = true →
    finiteNonnegative (DoubleSum.costSum a b) = true

section Saturation

variable {a b n : Int}

theorem nonnegative_eq (n : Int) : nonnegative n = max n 0 := by
  rw [nonnegative]
  split_ifs <;> omega

theorem saturatingNonnegativeAdd_eq (a b : Int) :
    saturatingNonnegativeAdd a b = min (max a 0 + max b 0) int64Max := by
  rw [saturatingNonnegativeAdd, nonnegative_eq, nonnegative_eq]

theorem saturatingNonnegativeAdd_range (a b : Int) :
    0 ≤ saturatingNonnegativeAdd a b ∧ saturatingNonnegativeAdd a b ≤ int64Max := by
  rw [saturatingNonnegativeAdd_eq]
  have hmax : int64Max = 2 ^ 63 - 1 := rfl
  omega

/-- A counter that is written is read. -/
theorem jsonValueInt64_counter {object : Json} {key : Bytes}
    (h : object.get? key = some (.int (Int64.ofInt n))) (hrange : 0 ≤ n ∧ n ≤ int64Max) :
    jsonValueInt64 object key 0 = n := by
  have hmax : int64Max = 2 ^ 63 - 1 := rfl
  have hread : (Int64.ofInt n).toInt = n := Int64.toInt_ofInt_of_le (by omega) (by omega)
  rw [jsonValueInt64, jsonValueInteger, h]
  show (if (Int64.ofInt n).toInt < _ ∨ _ then _ else (Int64.ofInt n).toInt) = n
  rw [hread, if_neg (by omega)]

end Saturation

/-! ### Usage -/

namespace Usage

/-- The counters of a usage. -/
def counters : List (Usage → Int) :=
  [input, output, cacheRead, cacheWrite, reasoning, webSearches]

/-- A counter depends on no cost. -/
theorem counter_congr {f : Usage → Int} (hf : f ∈ counters) {u v : Usage}
    (h : { u with cost := v.cost, costReported := v.costReported } = v) : f u = f v := by
  rw [← h]
  simp only [counters, List.mem_cons, List.not_mem_nil, or_false] at hf
  rcases hf with rfl | rfl | rfl | rfl | rfl | rfl <;> rfl

theorem counter_normalizeCost {f : Usage → Int} (hf : f ∈ counters) (u : Usage) :
    f u.normalizeCost = f u := by
  rw [normalizeCost]
  split_ifs
  · rfl
  · exact counter_congr hf rfl

/-- Cost that is reported. -/
def reportsCost (u : Usage) : Bool := u.costReported && finiteNonnegative u.cost

theorem normalizeCost_cost (u : Usage) :
    u.normalizeCost.costReported = u.reportsCost ∧
      finiteNonnegative u.normalizeCost.cost = true := by
  rw [normalizeCost, reportsCost]
  by_cases hfinite : finiteNonnegative u.cost = true
  · rw [if_pos hfinite, hfinite, Bool.and_true]
    exact ⟨rfl, rfl⟩
  · rw [if_neg hfinite, Bool.eq_false_iff.mpr hfinite, Bool.and_false]
    have hzero : finiteNonnegative ⟨0⟩ = true := by decide
    exact ⟨rfl, hzero⟩

variable [DoubleSum]

theorem counter_mergeCost {f : Usage → Int} (hf : f ∈ counters) (u : Usage) (addition : Double)
    (reported : Bool) : f (u.mergeCost addition reported) = f u := by
  rw [mergeCost]
  split_ifs
  · exact counter_normalizeCost hf u
  · exact (counter_congr hf rfl).trans (counter_normalizeCost hf u)

/-- A counter of a merge is the sum of the two. -/
theorem counter_merge {f : Usage → Int} (hf : f ∈ counters) (u v : Usage) :
    f (u.merge v) = saturatingNonnegativeAdd (f u) (f v) := by
  rw [merge, counter_mergeCost hf]
  simp only [counters, List.mem_cons, List.not_mem_nil, or_false] at hf
  rcases hf with rfl | rfl | rfl | rfl | rfl | rfl <;> rfl

/-- A merge reports cost when one of the two does. -/
theorem merge_cost [LawfulDoubleSum] (u v : Usage) :
    (u.merge v).costReported = (u.reportsCost || v.reportsCost) ∧
      finiteNonnegative (u.merge v).cost = true := by
  set sum : Usage :=
    { u with
      input := saturatingNonnegativeAdd u.input v.input
      output := saturatingNonnegativeAdd u.output v.output
      cacheRead := saturatingNonnegativeAdd u.cacheRead v.cacheRead
      cacheWrite := saturatingNonnegativeAdd u.cacheWrite v.cacheWrite
      reasoning := saturatingNonnegativeAdd u.reasoning v.reasoning
      webSearches := saturatingNonnegativeAdd u.webSearches v.webSearches }
  obtain ⟨hreported, hfinite⟩ := normalizeCost_cost sum
  have hsum : sum.reportsCost = u.reportsCost := rfl
  show (sum.mergeCost v.cost v.costReported).costReported = _ ∧
    finiteNonnegative (sum.mergeCost v.cost v.costReported).cost = true
  rw [mergeCost, reportsCost.eq_def v, ← hsum, ← hreported]
  by_cases hcost : finiteNonnegative v.cost = true
  · rw [hcost, if_neg (by decide), Bool.and_true]
    exact ⟨rfl, LawfulDoubleSum.finite_costSum hfinite hcost⟩
  · rw [Bool.eq_false_iff.mpr hcost, if_pos (by decide), Bool.and_false, Bool.or_false]
    exact ⟨rfl, hfinite⟩

theorem reportsCost_merge [LawfulDoubleSum] (u v : Usage) :
    (u.merge v).reportsCost = (u.reportsCost || v.reportsCost) := by
  obtain ⟨hreported, hfinite⟩ := merge_cost u v
  rw [reportsCost, hreported, hfinite, Bool.and_true]

end Usage

section UsageTally

variable [DoubleSum]

/-- Usage that is written is read as it is counted. -/
theorem usageFromJson_usageJson (u : Usage) :
    usageFromJson (usageJson u) = ({} : Usage).merge (({} : Usage).merge u) := by
  have hobject : (!(usageJson u).isObject) = false := rfl
  have hcost : (usageJson u).get? (lit "cost") = some (.float (({} : Usage).merge u).cost) := rfl
  have hreported : (usageJson u).get? (lit "cost_reported") =
      some (.bool (({} : Usage).merge u).costReported) := rfl
  have hrange : ∀ f ∈ Usage.counters, 0 ≤ f (({} : Usage).merge u) ∧
      f (({} : Usage).merge u) ≤ int64Max := by
    intro f hf
    rw [Usage.counter_merge hf]
    exact saturatingNonnegativeAdd_range _ _
  simp only [Usage.counters, List.forall_mem_cons] at hrange
  obtain ⟨hinput, houtput, hread, hwrite, hreasoning, hsearches, -⟩ := hrange
  rw [usageFromJson, hobject]
  simp only [Bool.false_eq_true, if_false, jsonValueDouble, jsonValueBool, hcost, hreported]
  rw [jsonValueInt64_counter rfl hinput, jsonValueInt64_counter rfl houtput,
    jsonValueInt64_counter rfl hread, jsonValueInt64_counter rfl hreasoning,
    jsonValueInt64_counter rfl hwrite, jsonValueInt64_counter rfl hsearches]

/-- A usage is the reports of a list, merged once each. -/
abbrev UsageTally : List Usage → Usage → Prop :=
  Tally {} Usage.merge fun written read => read = usageFromJson (usageJson written)

/-- The counters of a tally are the sums of the reports'. -/
theorem usageCounter {f : Usage → Int} (hf : f ∈ Usage.counters) :
    Tally.Counter {} Usage.merge (fun written read => read = usageFromJson (usageJson written))
      int64Max f where
  nonneg := by decide
  zero := by
    simp only [Usage.counters, List.mem_cons, List.not_mem_nil, or_false] at hf
    rcases hf with rfl | rfl | rfl | rfl | rfl | rfl <;> rfl
  add a b := by rw [Usage.counter_merge hf, saturatingNonnegativeAdd_eq]
  view := by
    rintro a b rfl
    have hzero : f {} = 0 := by
      simp only [Usage.counters, List.mem_cons, List.not_mem_nil, or_false] at hf
      rcases hf with rfl | rfl | rfl | rfl | rfl | rfl <;> rfl
    have hmax : int64Max = 2 ^ 63 - 1 := rfl
    rw [usageFromJson_usageJson, Usage.counter_merge hf, Usage.counter_merge hf,
      saturatingNonnegativeAdd_eq, saturatingNonnegativeAdd_eq, hzero]
    omega

/-- A tally reports cost when one of the reports does. -/
theorem UsageTally.reportsCost [LawfulDoubleSum] {reports : List Usage} {total : Usage}
    (h : UsageTally reports total) : total.reportsCost = reports.any Usage.reportsCost := by
  induction h with
  | zero => rfl
  | one u => rw [List.any_cons, List.any_nil, Bool.or_false]
  | add _ _ iha ihb => rw [Usage.reportsCost_merge, iha, ihb, List.any_append]
  | view hread _ ih =>
    rw [hread, usageFromJson_usageJson, Usage.reportsCost_merge, Usage.reportsCost_merge, ih]
    rfl
  | perm hperm _ ih => rw [ih, hperm.any_eq]

/-- **No usage of a total is lost on it**: when it has none, no report adds
any. -/
theorem UsageTally.hasUsage [LawfulDoubleSum] {reports : List Usage} {total : Usage}
    (h : UsageTally reports total) (hnone : hasUsage total = false) {u : Usage}
    (hu : u ∈ reports) : UAgent.hasUsage (({} : Usage).merge u) = false := by
  have hcounter : ∀ f ∈ Usage.counters, f total = 0 → f (({} : Usage).merge u) = 0 := by
    intro f hf hzero
    have hsum := h.counter (usageCounter hf)
    have hempty := (usageCounter hf).zero
    have hmax : int64Max = 2 ^ 63 - 1 := rfl
    have hle : max (f u) 0 ≤ (reports.map fun x => max (f x) 0).sum :=
      List.single_le_sum (by
        intro n hn
        obtain ⟨x, -, rfl⟩ := List.mem_map.mp hn
        exact le_max_right _ _) _ (List.mem_map_of_mem hu)
    rw [Usage.counter_merge hf, saturatingNonnegativeAdd_eq, hempty]
    omega
  have hcost : total.costReported = false → (({} : Usage).merge u).costReported = false := by
    intro hfalse
    have hany := h.reportsCost
    rw [Usage.reportsCost, hfalse, Bool.false_and] at hany
    rw [(Usage.merge_cost {} u).1, Bool.eq_false_iff.mpr (List.any_eq_false.mp hany.symm u hu)]
    rfl
  simp only [Usage.counters, List.forall_mem_cons] at hcounter
  obtain ⟨hinput, houtput, hread, hwrite, hreasoning, hsearches, -⟩ := hcounter
  simp only [UAgent.hasUsage, Bool.or_eq_false_iff, decide_eq_false_iff_not, not_not] at hnone ⊢
  obtain ⟨⟨⟨⟨⟨⟨h1, h2⟩, h3⟩, h4⟩, h5⟩, h6⟩, h7⟩ := hnone
  exact ⟨⟨⟨⟨⟨⟨hinput h1, houtput h2⟩, hread h3⟩, hwrite h4⟩, hreasoning h5⟩, hsearches h6⟩, hcost h7⟩

end UsageTally

/-! ### Statistics -/

section StatisticsTally

variable [DoubleSum]

/-- Statistics are the reports of a list, merged once each; some of them under
the names of other agents' work. -/
abbrev StatisticsTally : List Json → Json → Prop :=
  Tally (.obj []) mergeNumericStatistics fun plain named =>
    named = prefixNumericStatistics (lit "side_") plain

theorem mergeNumericStatistics_null (delta : Json) :
    mergeNumericStatistics .null delta = mergeNumericStatistics (.obj []) delta := by
  cases delta <;> rfl

/-- Statistics are an object, whatever they were added to. -/
theorem isObject_mergeNumericStatistics (total delta : Json) :
    (mergeNumericStatistics total delta).isObject = true := by
  have hstart : (if total.isObject = true then total else .obj []).isObject = true := by
    split_ifs with htotal
    · exact htotal
    · rfl
  have hfields : ∀ (fields : List (Bytes × Json)) (total : Json), total.isObject = true →
      (mergeFields total fields).isObject = true := by
    intro fields
    induction fields with
    | nil =>
      intro total htotal
      rw [mergeFields]
      exact htotal
    | cons e fields ih =>
      intro total htotal
      obtain ⟨key, value⟩ := e
      have hif : ∀ (p : Prop) [Decidable p] (merged : Json),
          (if p then total.set key merged else total).isObject = true := by
        intro p _ merged
        split_ifs
        · exact Json.isObject_set htotal _ _
        · exact htotal
      cases value with
      | obj group =>
        rw [mergeFields]
        exact ih _ (Json.isObject_set htotal _ _)
      | float x =>
        rw [mergeFields]
        exact ih _ (hif _ _)
      | _ =>
        rw [mergeFields]
        · exact ih _ (hif _ _)
        · exact fun _ h => by cases h
        · exact fun _ h => by cases h
  cases delta with
  | obj fields =>
    rw [mergeNumericStatistics]
    exact hfields fields _ hstart
  | _ =>
    rw [mergeNumericStatistics]
    · exact hstart
    · exact fun fields h => by cases h

end StatisticsTally

end UAgent
