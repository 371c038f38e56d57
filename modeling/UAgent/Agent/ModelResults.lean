/-
UAgent/Agent/ModelResults.lean

What the model is given of the results of a batch of tool calls
(`ModelFacingToolResults`, src/agent/dispatch.cc): each within its own cap, and
all of them within a budget that is shared out fairly.

A result within its share is made again from the output it came from, under a
cap of its own length; where the output was cut to less than its cap, because
the cuts fell on codepoint boundaries, that cuts it again.  Main result:
`modelFacing_fair_iff`.  A result is given as it is where its cut lasts
(`LastingCut`).
-/
import UAgent.Base.FairShares
import UAgent.Core.RepeatedCuts
import Mathlib.Data.List.Sort

namespace UAgent

open Bytes

/-! ### Results and their hints -/

/-- `ToolArtifact`. -/
structure ToolArtifact where
  path : Bytes
  bytes : Nat := 0
deriving DecidableEq

/-- The fields of `ToolResult` that the model's text is made of. -/
structure ToolResult where
  output : Bytes := []
  hint : Bytes := []
  artifact : Option ToolArtifact := none
  resultChars : Int := -1
deriving DecidableEq

/-- A call of a batch: its result, and `result_chars` of its tool. -/
structure ResultTask where
  result : ToolResult
  toolResultChars : Option Int := none
deriving DecidableEq

/-- `ArtifactHint`. -/
def artifactHint (artifact : ToolArtifact) : Bytes :=
  lit "\n[captured log: " ++ artifact.path ++ lit " (" ++ Json.decimal artifact.bytes ++
    lit " bytes); query with jq/python via run or read selected ranges; do not read it whole]"

/-- `ModelHint`: a hint alone does not start on an empty line. -/
def modelHint (result : ToolResult) : Bytes :=
  let hint := (if result.hint = [] then [] else ch '\n' :: result.hint) ++
    result.artifact.elim [] artifactHint
  if result.output = [] then hint.drop 1 else hint

/-- `LimitOutput`. -/
def limitOutput (text : Bytes) (cap : Int) : Bytes :=
  if cap ≤ 0 then text else headTail text cap.toNat

/-- `ResultCharLimit`. -/
def resultCharLimit (task : ResultTask) : Int :=
  if 0 ≤ task.result.resultChars then task.result.resultChars else task.toolResultChars.getD (-1)

section Texts

-- `ToolResultCap()`: the setting for every tool.
variable (toolResultCap : Int)

/-- The cap of a result: below zero it is the setting. -/
def capOf (cap : Int) : Int := if cap < 0 then toolResultCap else cap

/-- `ModelResultText`. -/
def modelResultText (result : ToolResult) (cap : Int) : Bytes :=
  let cap := capOf toolResultCap cap
  let hint := modelHint result
  if hint = [] then limitOutput result.output cap
  else if cap ≤ 0 then result.output ++ hint
  else if cap ≤ hint.length then utf8Prefix hint cap.toNat
  else limitOutput result.output (cap - hint.length) ++ hint

/-- A result's text under its own limit. -/
def ownText (task : ResultTask) : Bytes :=
  modelResultText toolResultCap task.result (resultCharLimit task)

/-! ### Sharing the budget -/

/-- `ToolBatchResultCap`. -/
def toolBatchResultCap : Int :=
  if toolResultCap ≤ 0 then toolResultCap
  else if toolResultCap > (2 ^ 63 - 1) / 2 then 2 ^ 63 - 1 else toolResultCap * 2

/-- The budget of a batch: below zero the setting, and no less than the largest
limit in it. -/
def batchBudget (tasks : List ResultTask) (budget : Int) : Int :=
  if budget < 0 then
    if 0 < toolBatchResultCap toolResultCap then
      tasks.foldl (fun budget task => max budget (resultCharLimit task))
        (toolBatchResultCap toolResultCap)
    else toolBatchResultCap toolResultCap
  else budget

/-- The order of the results: by size, then as they stand. -/
def resultOrder (texts : List Bytes) : List (Nat × Nat) :=
  (texts.zipIdx.map fun e => (e.2, e.1.length)).insertionSort
    fun l r => l.2 < r.2 ∨ l.2 = r.2 ∧ l.1 ≤ r.1

/-- The cap of the result at an index. -/
def capAt (texts : List Bytes) (budget : Nat) (index : Nat) : Nat :=
  (Assoc.lookup index (FairShares.fill budget (resultOrder texts))).getD 0

/-- `ModelFacingToolResults`.  The sizes of texts that are held add up without
leaving a `size_t`. -/
def modelFacingToolResults (tasks : List ResultTask) (budget : Int) : List Bytes :=
  let budget := batchBudget toolResultCap tasks budget
  let texts := tasks.map (ownText toolResultCap)
  if budget ≤ 0 ∨ ((texts.map List.length).sum : Int) ≤ budget then texts
  else
    tasks.zipIdx.map fun e =>
      if capAt texts budget.toNat e.2 = 0 then []
      else modelResultText toolResultCap e.1.result (capAt texts budget.toNat e.2)

/-! ### Shares -/

/-- A size comes first by its size, then by where it stands. -/
def comesFirst (l r : Nat × Nat) : Prop := l.2 < r.2 ∨ l.2 = r.2 ∧ l.1 < r.1

instance : DecidableRel comesFirst := fun l r =>
  inferInstanceAs (Decidable (l.2 < r.2 ∨ l.2 = r.2 ∧ l.1 < r.1))

/-- The sizes with where they stand. -/
def demandsOf (sizes : List Nat) : List (Nat × Nat) := sizes.zipIdx.map Prod.swap

/-- The fair share of a size: the greatest level at which all of the sizes, cut
off there, are within the budget, and one more for the first of the larger ones
as long as the budget lasts. -/
def fairShare (sizes : List Nat) (budget index : Nat) : Nat :=
  FairShares.share comesFirst budget (demandsOf sizes) (index, sizes.getD index 0)

section Shares

variable {texts : List Bytes} {sizes : List Nat} {budget index size : Nat}

theorem demandsOf_fst (sizes : List Nat) :
    (demandsOf sizes).map Prod.fst = List.range sizes.length := by
  rw [demandsOf, List.map_map, List.range_eq_range', ← List.zipIdx_map_snd 0 sizes]
  rfl

theorem demandsOf_snd (sizes : List Nat) : (demandsOf sizes).map Prod.snd = sizes := by
  conv_rhs => rw [← List.zipIdx_map_fst 0 sizes]
  rw [demandsOf, List.map_map]
  rfl

theorem mem_demandsOf : (index, size) ∈ demandsOf sizes ↔ sizes[index]? = some size := by
  rw [demandsOf, List.mem_map, ← List.mk_mem_zipIdx_iff_getElem?]
  constructor
  · rintro ⟨⟨size', index'⟩, hmem, hswap⟩
    obtain ⟨rfl, rfl⟩ := Prod.mk.inj hswap
    exact hmem
  · exact fun hmem => ⟨(size, index), hmem, rfl⟩

/-- Sizes within the budget are within their shares. -/
theorem le_fairShare (hfits : sizes.sum ≤ budget) (hsize : sizes[index]? = some size) :
    size ≤ fairShare sizes budget index := by
  have hlevel : size ≤ FairShares.level budget (demandsOf sizes) :=
    @FairShares.le_level _ budget (demandsOf sizes) (index, size) (by rwa [demandsOf_snd])
      (mem_demandsOf.mpr hsize)
  exact hlevel.trans (FairShares.level_le_share comesFirst)

theorem resultOrder_perm (texts : List Bytes) :
    (resultOrder texts).Perm (demandsOf (texts.map List.length)) := by
  have hdemands : demandsOf (texts.map List.length) =
      texts.zipIdx.map fun e => (e.2, e.1.length) := by
    rw [demandsOf, List.zipIdx_map, List.map_map]
    rfl
  rw [hdemands]
  exact List.perm_insertionSort _ _

/-- No two results stand at one place, so the order is strict. -/
theorem resultOrder_sorted (texts : List Bytes) : (resultOrder texts).Pairwise comesFirst := by
  let le : Nat × Nat → Nat × Nat → Prop := fun l r => l.2 < r.2 ∨ l.2 = r.2 ∧ l.1 ≤ r.1
  have : Std.Total le := ⟨fun l r => by
    show (_ ∨ _) ∨ (_ ∨ _)
    omega⟩
  have : IsTrans (Nat × Nat) le := ⟨fun l m r hlm hmr => by
    rcases hlm with hlm | hlm <;> rcases hmr with hmr | hmr <;> show _ ∨ _ <;> omega⟩
  have hsorted := List.pairwise_insertionSort le (texts.zipIdx.map fun e => (e.2, e.1.length))
  have hkeys : ((resultOrder texts).map Prod.fst).Nodup := by
    rw [((resultOrder_perm texts).map Prod.fst).nodup_iff, demandsOf_fst]
    exact List.nodup_range
  refine hsorted.imp₂ (fun d e hle hne => ?_) (List.pairwise_map.mp hkeys)
  rcases hle with hlt | ⟨hsize, hindex⟩
  · exact .inl hlt
  · exact .inr ⟨hsize, lt_of_le_of_ne hindex hne⟩

theorem lookup_map_of_mem {demands : List (Nat × Nat)} (hnodup : (demands.map Prod.fst).Nodup)
    (f : Nat × Nat → Nat) {d : Nat × Nat} (hd : d ∈ demands) :
    Assoc.lookup d.1 (demands.map fun d => (d.1, f d)) = some (f d) := by
  induction demands with
  | nil => exact absurd hd List.not_mem_nil
  | cons head demands ih =>
    rw [List.map_cons, List.nodup_cons] at hnodup
    rw [List.map_cons, Assoc.lookup_cons]
    rcases List.mem_cons.mp hd with rfl | hd
    · exact if_pos rfl
    · have hne : head.1 ≠ d.1 := fun heq => hnodup.1 (heq ▸ List.mem_map_of_mem hd)
      rw [if_neg hne]
      exact ih hnodup.2 hd

/-- What filling gives the results of a batch over its budget. -/
theorem fill_resultOrder (hover : budget < (texts.map List.length).sum) :
    FairShares.fill budget (resultOrder texts) = (resultOrder texts).map fun d =>
      (d.1, min d.2 (FairShares.share comesFirst budget (demandsOf (texts.map List.length)) d)) := by
  have hsizes : ((resultOrder texts).map Prod.snd).sum = (texts.map List.length).sum := by
    rw [((resultOrder_perm texts).map Prod.snd).sum_eq, demandsOf_snd]
  rw [FairShares.fill_eq (resultOrder_sorted texts) _ _ _ (hsizes ▸ hover)]
  · simp only [FairShares.share_perm comesFirst (resultOrder_perm texts)]
  · rintro d (hlt | ⟨-, hlt⟩)
    · exact lt_irrefl _ hlt
    · exact lt_irrefl _ hlt
  · rintro d e hde hed
    unfold comesFirst at hde hed
    omega
  · rintro d e (hlt | ⟨heq, -⟩)
    · exact hlt.le
    · exact heq.le

/-- **Caps are shares**: over the budget a result gets its share, or its size
where that is less. -/
theorem capAt_eq (hover : budget < (texts.map List.length).sum) {text : Bytes}
    (htext : texts[index]? = some text) :
    capAt texts budget index =
      min text.length (fairShare (texts.map List.length) budget index) := by
  have hsize : (texts.map List.length)[index]? = some text.length := by
    rw [List.getElem?_map, htext, Option.map_some]
  have hdemand : (index, text.length) ∈ resultOrder texts :=
    (resultOrder_perm texts).mem_iff.mpr (mem_demandsOf.mpr hsize)
  have hkeys : ((resultOrder texts).map Prod.fst).Nodup := by
    rw [((resultOrder_perm texts).map Prod.fst).nodup_iff, demandsOf_fst]
    exact List.nodup_range
  have hget : (texts.map List.length).getD index 0 = text.length := by
    rw [List.getD_eq_getElem?_getD, hsize, Option.getD_some]
  rw [capAt, fill_resultOrder hover, lookup_map_of_mem hkeys _ hdemand, Option.getD_some, fairShare,
    hget]

/-- What the shares give is the budget. -/
theorem sum_fairShare (hover : budget < (texts.map List.length).sum) :
    ((demandsOf (texts.map List.length)).map fun d =>
      min d.2 (fairShare (texts.map List.length) budget d.1)).sum = budget := by
  have hfill := FairShares.sum_fill
    (((resultOrder_perm texts).map Prod.snd).sum_eq.symm ▸ (demandsOf_snd _).symm ▸ hover :
      budget < ((resultOrder texts).map Prod.snd).sum)
  rw [fill_resultOrder hover, List.map_map, ((resultOrder_perm texts).map _).sum_eq] at hfill
  conv_rhs => rw [← hfill]
  refine congrArg List.sum (List.map_congr_left fun d hd => ?_)
  obtain ⟨index, size⟩ := d
  have hget : (texts.map List.length).getD index 0 = size := by
    rw [List.getD_eq_getElem?_getD, mem_demandsOf.mp hd, Option.getD_some]
  rw [fairShare, hget]
  rfl

end Shares

/-! ### Texts -/

variable {toolResultCap} {result : ToolResult} {cap limit : Int}

theorem capOf_of_nonneg (h : 0 ≤ cap) : capOf toolResultCap cap = cap := if_neg (by omega)

theorem limitOutput_of_pos (text : Bytes) (h : 0 < cap) :
    limitOutput text cap = headTail text cap.toNat := if_neg (by omega)

/-- A text under a cap is within it. -/
theorem length_modelResultText_le (h : 0 < cap) :
    ((modelResultText toolResultCap result cap).length : Int) ≤ cap := by
  rw [modelResultText, capOf_of_nonneg h.le]
  split_ifs with hhint hzero hlong
  · rw [limitOutput_of_pos _ h]
    have hle := length_headTail_le result.output cap.toNat
    omega
  · omega
  · have hle := length_utf8Prefix_le (modelHint result) cap.toNat
    omega
  · rw [limitOutput_of_pos _ (by omega), List.length_append]
    have hle := length_headTail_le result.output (cap - (modelHint result).length).toNat
    omega

/-- What the limit leaves of the output beside the hint comes out the same when
it is cut to its own length. -/
def Recuts (toolResultCap : Int) (result : ToolResult) (limit : Int) : Prop :=
  0 < capOf toolResultCap limit - (modelHint result).length →
    headTail result.output (headTail result.output
        (capOf toolResultCap limit - (modelHint result).length).toNat).length =
      headTail result.output (capOf toolResultCap limit - (modelHint result).length).toNat

/-- The output of an empty text comes out the same. -/
theorem recuts_of_nil (h : modelResultText toolResultCap result limit = []) :
    Recuts toolResultCap result limit := by
  intro hroom
  have hpos : 0 < capOf toolResultCap limit := by omega
  rw [modelResultText] at h
  split_ifs at h with hhint hcap hlong
  · have hroom' : capOf toolResultCap limit - (modelHint result).length =
        capOf toolResultCap limit := by
      rw [hhint, List.length_nil]
      omega
    rw [limitOutput_of_pos _ hpos] at h
    rw [hroom', h, headTail_eq_nil (by omega) h]
    rfl
  · omega
  · omega
  · exact absurd (List.append_eq_nil_iff.mp h).2 hhint

/-- **A text made again** under its own length is the same exactly where its
output recuts. -/
theorem modelResultText_length_iff
    (hne : modelResultText toolResultCap result limit ≠ []) :
    modelResultText toolResultCap result (modelResultText toolResultCap result limit).length =
      modelResultText toolResultCap result limit ↔ Recuts toolResultCap result limit := by
  have hpos : (0 : Int) < (modelResultText toolResultCap result limit).length := by
    have := List.length_pos_iff.mpr hne
    omega
  generalize hown : modelResultText toolResultCap result limit = own at *
  rw [modelResultText] at hown
  rw [modelResultText, capOf_of_nonneg hpos.le, Recuts]
  by_cases hhint : modelHint result = []
  · rw [if_pos hhint] at hown ⊢
    rw [hhint, List.length_nil, Nat.cast_zero, sub_zero, limitOutput_of_pos _ hpos, Int.toNat_natCast]
    by_cases hcap : capOf toolResultCap limit ≤ 0
    · rw [limitOutput, if_pos hcap] at hown
      rw [← hown, headTail_of_le le_rfl]
      exact iff_of_true rfl fun h => absurd h (by omega)
    · rw [limitOutput_of_pos _ (by omega)] at hown
      rw [hown]
      exact ⟨fun h _ => h, fun h => h (by omega)⟩
  · rw [if_neg hhint, if_neg (by omega)]
    rw [if_neg hhint] at hown
    -- What is made again of some of the output and the hint.
    have hagain : ∀ shown : Bytes, shown ++ modelHint result = own →
        (shown = [] → headTail result.output shown.length = []) →
        (if (own.length : Int) ≤ (modelHint result).length then
          utf8Prefix (modelHint result) (own.length : Int).toNat else
          limitOutput result.output ((own.length : Int) - (modelHint result).length) ++
            modelHint result) = headTail result.output shown.length ++ modelHint result := by
      rintro shown rfl hnil
      by_cases hshown : shown = []
      · rw [hnil hshown, hshown, List.nil_append, if_pos le_rfl, Int.toNat_natCast,
          utf8Prefix_of_le le_rfl]
      · have hshownpos := List.length_pos_iff.mpr hshown
        have hroom : ((shown ++ modelHint result).length : Int) - (modelHint result).length =
            shown.length := by
          rw [List.length_append]
          omega
        rw [hroom, if_neg (by rw [List.length_append]; omega), limitOutput_of_pos _ (by omega),
          Int.toNat_natCast]
    by_cases hcap : capOf toolResultCap limit ≤ 0
    · rw [if_pos hcap] at hown
      rw [hagain _ hown fun hnil => by rw [hnil]; rfl, headTail_of_le le_rfl]
      exact iff_of_true hown fun h => absurd h (by omega)
    rw [if_neg hcap] at hown
    by_cases hlong : capOf toolResultCap limit ≤ (modelHint result).length
    · rw [if_pos hlong] at hown
      have hle := length_utf8Prefix_le (modelHint result) (capOf toolResultCap limit).toNat
      rw [hown] at hle
      rw [if_pos (by omega), Int.toNat_natCast, ← hown, utf8Prefix_length]
      exact iff_of_true rfl fun h => absurd h (by omega)
    · rw [if_neg hlong, limitOutput_of_pos _ (by omega)] at hown
      rw [hagain _ hown fun hnil => ?_, ← hown, List.append_left_inj]
      · exact ⟨fun h _ => h, fun h => h (by omega)⟩
      · rw [hnil, headTail_eq_nil (by omega) hnil]
        rfl

/-- What the limit leaves of the output beside the hint is a cut that lasts. -/
def LastingCut (toolResultCap : Int) (task : ResultTask) : Prop :=
  0 < capOf toolResultCap (resultCharLimit task) - (modelHint task.result).length →
    CutLasts task.result.output
      (capOf toolResultCap (resultCharLimit task) - (modelHint task.result).length).toNat

theorem LastingCut.recuts {task : ResultTask} (h : LastingCut toolResultCap task) :
    Recuts toolResultCap task.result (resultCharLimit task) := fun hroom =>
  headTail_twice (h hroom)

theorem lastingCut_of_recuts {task : ResultTask} (hplain : Unmarked task.result.output)
    (h : Recuts toolResultCap task.result (resultCharLimit task)) :
    LastingCut toolResultCap task := fun hroom => cutLasts_of_twice hplain (h hroom)

/-! ### Batches -/

variable {tasks : List ResultTask} {budget : Int}

/-- The results of a batch under their own limits. -/
def ownTexts (toolResultCap : Int) (tasks : List ResultTask) : List Bytes :=
  tasks.map (ownText toolResultCap)

/-- Their sizes. -/
def ownSizes (toolResultCap : Int) (tasks : List ResultTask) : List Nat :=
  (ownTexts toolResultCap tasks).map List.length

/-- **What the model is to be given**: a text for each result, within the budget
together, and the result itself where it is within its share. -/
structure FairResults (toolResultCap : Int) (tasks : List ResultTask) (budget : Int) : Prop where
  length : (modelFacingToolResults toolResultCap tasks budget).length = tasks.length
  total : (((modelFacingToolResults toolResultCap tasks budget).map List.length).sum : Int) ≤ budget
  kept : ∀ (index : Nat) (task : ResultTask), tasks[index]? = some task →
    (ownText toolResultCap task).length ≤
      fairShare (ownSizes toolResultCap tasks) budget.toNat index →
    (modelFacingToolResults toolResultCap tasks budget)[index]? = some (ownText toolResultCap task)

theorem ownSizes_getElem? {index : Nat} {task : ResultTask} (htask : tasks[index]? = some task) :
    (ownTexts toolResultCap tasks)[index]? = some (ownText toolResultCap task) ∧
      (ownSizes toolResultCap tasks)[index]? = some (ownText toolResultCap task).length := by
  rw [ownSizes, ownTexts, List.getElem?_map, List.getElem?_map, List.getElem?_map, htask]
  exact ⟨rfl, rfl⟩

theorem modelFacing_within (hbudget : 0 < budget)
    (hfits : ((ownSizes toolResultCap tasks).sum : Int) ≤ budget) :
    modelFacingToolResults toolResultCap tasks budget = ownTexts toolResultCap tasks := by
  have hbatch : batchBudget toolResultCap tasks budget = budget := if_neg (by omega)
  rw [modelFacingToolResults, hbatch]
  exact if_pos (.inr hfits)

/-- The text of a result with a share of the budget. -/
def sharedText (toolResultCap : Int) (task : ResultTask) (share : Nat) : Bytes :=
  if share = 0 then [] else modelResultText toolResultCap task.result share

theorem modelFacing_over (hbudget : 0 < budget)
    (hover : budget < ((ownSizes toolResultCap tasks).sum : Int)) :
    modelFacingToolResults toolResultCap tasks budget = tasks.zipIdx.map fun e =>
      sharedText toolResultCap e.1 (min (ownText toolResultCap e.1).length
        (fairShare (ownSizes toolResultCap tasks) budget.toNat e.2)) := by
  have hbatch : batchBudget toolResultCap tasks budget = budget := if_neg (by omega)
  have hover' : budget.toNat < ((ownTexts toolResultCap tasks).map List.length).sum := by
    rw [ownSizes] at hover
    omega
  rw [modelFacingToolResults, hbatch]
  refine (if_neg ?_).trans (List.map_congr_left fun e he => ?_)
  · rw [not_or, not_le, not_le]
    exact ⟨hbudget, hover⟩
  · have htask : tasks[e.2]? = some e.1 := List.mk_mem_zipIdx_iff_getElem?.mp he
    exact congrArg (sharedText toolResultCap e.1) (capAt_eq hover' (ownSizes_getElem? htask).1)

theorem length_sharedText_le (task : ResultTask) (share : Nat) :
    (sharedText toolResultCap task share).length ≤ share := by
  rw [sharedText]
  split_ifs with hzero
  · exact Nat.zero_le _
  · have hle : ((modelResultText toolResultCap task.result share).length : Int) ≤ share :=
      length_modelResultText_le (by omega)
    omega

/-- A result with a share of its own size. -/
theorem sharedText_length_iff (task : ResultTask) :
    sharedText toolResultCap task (ownText toolResultCap task).length = ownText toolResultCap task ↔
      Recuts toolResultCap task.result (resultCharLimit task) := by
  by_cases hnil : ownText toolResultCap task = []
  · rw [hnil]
    exact iff_of_true rfl (recuts_of_nil hnil)
  · rw [sharedText, if_neg (by simpa using hnil)]
    exact modelResultText_length_iff hnil

/-- A result within its share is given with a share of its own size. -/
theorem modelFacing_of_le (hbudget : 0 < budget)
    (hover : budget < ((ownSizes toolResultCap tasks).sum : Int)) {index : Nat} {task : ResultTask}
    (htask : tasks[index]? = some task) (hwithin : (ownText toolResultCap task).length ≤
      fairShare (ownSizes toolResultCap tasks) budget.toNat index) :
    (modelFacingToolResults toolResultCap tasks budget)[index]? =
      some (sharedText toolResultCap task (ownText toolResultCap task).length) := by
  rw [modelFacing_over hbudget hover, List.getElem?_map, List.getElem?_zipIdx, htask]
  simp [min_eq_left hwithin]

theorem total_modelFacing_le (hbudget : 0 < budget)
    (hover : budget < ((ownSizes toolResultCap tasks).sum : Int)) :
    ((modelFacingToolResults toolResultCap tasks budget).map List.length).sum ≤ budget.toNat := by
  have hsum := @sum_fairShare (ownTexts toolResultCap tasks) budget.toNat (by
    rw [ownSizes] at hover
    omega)
  have hdemands : demandsOf ((ownTexts toolResultCap tasks).map List.length) =
      tasks.zipIdx.map fun e => (e.2, (ownText toolResultCap e.1).length) := by
    rw [demandsOf, ownTexts, List.map_map, List.zipIdx_map, List.map_map]
    rfl
  rw [hdemands, List.map_map] at hsum
  rw [modelFacing_over hbudget hover, List.map_map]
  exact (List.sum_le_sum fun e _ => length_sharedText_le _ _).trans hsum.le

/-- **Results of a batch.**  Over the budget, the shares give out the budget;
the texts are within it; and results within their shares are given as they are
where their cuts last, and of outputs that hold no omission marker of their own
only there. -/
theorem modelFacing_fair_iff (toolResultCap : Int) (tasks : List ResultTask) (budget : Int)
    (hbudget : 0 < budget) :
    ((∀ (index : Nat) (task : ResultTask), tasks[index]? = some task →
        budget < ((ownSizes toolResultCap tasks).sum : Int) →
        (ownText toolResultCap task).length ≤
          fairShare (ownSizes toolResultCap tasks) budget.toNat index →
        LastingCut toolResultCap task) →
      FairResults toolResultCap tasks budget) ∧
    ((∀ task ∈ tasks, Unmarked task.result.output) → FairResults toolResultCap tasks budget →
      ∀ (index : Nat) (task : ResultTask), tasks[index]? = some task →
        budget < ((ownSizes toolResultCap tasks).sum : Int) →
        (ownText toolResultCap task).length ≤
          fairShare (ownSizes toolResultCap tasks) budget.toNat index →
        LastingCut toolResultCap task) ∧
    (budget < ((ownSizes toolResultCap tasks).sum : Int) →
      ((demandsOf (ownSizes toolResultCap tasks)).map fun d =>
        min d.2 (fairShare (ownSizes toolResultCap tasks) budget.toNat d.1)).sum =
          budget.toNat) := by
  refine ⟨fun hlasting => ?_, fun hplain hfair index task htask hover hwithin => ?_,
    fun hover => sum_fairShare (by rw [ownSizes] at hover; omega)⟩
  · rcases lt_or_ge budget ((ownSizes toolResultCap tasks).sum : Int) with hover | hfits
    · refine ⟨?_, ?_, fun index task htask hwithin => ?_⟩
      · rw [modelFacing_over hbudget hover, List.length_map, List.length_zipIdx]
      · exact (Int.ofNat_le.mpr (total_modelFacing_le hbudget hover)).trans (by omega)
      · rw [modelFacing_of_le hbudget hover htask hwithin]
        have hrecuts := (hlasting index task htask hover hwithin).recuts
        exact congrArg some ((sharedText_length_iff task).mpr hrecuts)
    · have hout := modelFacing_within hbudget hfits
      refine ⟨?_, ?_, fun index task htask _ => ?_⟩
      · rw [hout, ownTexts, List.length_map]
      · rw [hout]
        exact hfits
      · rw [hout]
        exact (ownSizes_getElem? htask).1
  · have hkept := hfair.kept index task htask hwithin
    rw [modelFacing_of_le hbudget hover htask hwithin, Option.some.injEq] at hkept
    exact lastingCut_of_recuts (hplain task (List.mem_of_getElem? htask))
      ((sharedText_length_iff task).mp hkept)

end Texts

/-- Twenty codepoints of two bytes under a limit of 35, and a hundred bytes. -/
def cutBatch : List ResultTask :=
  [{ result := { output := (List.replicate 20 (lit "é")).flatten, resultChars := 35 } },
    { result := { output := List.replicate 100 (ch 'x'), resultChars := 0 } }]

/-- Under a limit of 36 the cuts fill it, and the result is kept. -/
theorem modelFacing_fair_filled :
    FairResults 1000
      [{ result := { output := (List.replicate 20 (lit "é")).flatten, resultChars := 36 } },
        { result := { output := List.replicate 100 (ch 'x'), resultChars := 0 } }] 100 := by
  refine (modelFacing_fair_iff 1000 _ 100 (by decide)).1 fun index task htask _ hwithin => ?_
  rcases index with - | - | index
  · obtain rfl := Option.some.inj htask
    refine fun _ => @CutLasts.ends _ _ 8 32 ⟨?_, ?_, ?_⟩ ?_ ?_
    all_goals decide
  · obtain rfl := Option.some.inj htask
    exact absurd hwithin (by decide)
  · cases htask

/-- **A small result is cut again**: of 34 bytes, with a share of 66. -/
theorem modelFacing_cuts_again :
    ownSizes 1000 cutBatch = [34, 100] ∧
      fairShare (ownSizes 1000 cutBatch) 100 0 = 66 ∧
      ((modelFacingToolResults 1000 cutBatch 100).map List.length).sum = 98 ∧
      ¬∀ (toolResultCap : Int) (tasks : List ResultTask) (budget : Int), 0 < budget →
        FairResults toolResultCap tasks budget := by
  refine ⟨by decide, by decide, by decide, fun h => ?_⟩
  have hkept := (h 1000 cutBatch 100 (by decide)).kept 0 _ rfl (by decide)
  revert hkept
  decide

end UAgent
