/-
UAgent/Agent/ResultPruning.lean

What `Conversation::PruneOldToolResults` (src/agent/conversation.cc) replaces.
It scans the rows from the last to the first.  A result may go when at least
two of the user's turns are newer, it is long enough, was not replaced before
and its tool is not one whose output is retained (`eligibleResult`); the
newest of these are protected by their length, and of the others each is
replaced that its replacement is shorter than (`replacement`).

`scanned` says what the scan has found at every row, `replaced` what the
replacements do to the rows.  Main result: `pruneOldToolResults_effect`.  The
result at which the protected characters run out is replaced whole, so what
is protected are the results that lie wholly within them.
-/
import UAgent.Agent.AttachmentKinds

namespace UAgent

open Bytes

namespace Conversation

/-! ### What may be replaced -/

section

variable (rows : List ConversationRow) (protect : Nat) (retained : List Bytes)

/-- The turns of the user from a row on, as the scan counts them. -/
def userTurnsFrom (index : Nat) : Nat := (rows.drop index).countP (·.kind = .user)

/-- The text of a result that may be replaced. -/
def eligibleResult (index : Nat) : Option Bytes :=
  match rows[index]? with
  | none => none
  | some row =>
    if userTurnsFrom rows (index + 1) < kProtectedUserTurns ∨ row.kind ≠ .toolResult then none
    else
      (jsonStringRef row.message (lit "content")).filter fun content =>
        ¬ (content.length < kMinimumPrunableResultChars ∨ kCompactedToolOutput.isPrefixOf content ∨
          toolResultName rows index ∈ retained)

/-- The characters of the result at a row, if it may be replaced. -/
def eligibleChars (index : Nat) : Nat :=
  match eligibleResult rows retained index with
  | none => 0
  | some content => content.length

/-- The characters of the results that may be replaced, from a row on. -/
def eligibleFrom (index : Nat) : Nat :=
  (((List.range rows.length).drop index).map (eligibleChars rows retained)).sum

/-- What replaces the result at a row. -/
def replacement (index : Nat) : Option Bytes :=
  match eligibleResult rows retained index with
  | none => none
  | some content =>
    if min (eligibleFrom rows retained index) sizeMax ≤ protect ∨
        content.length ≤ (compactedResult content).length then none
    else some (compactedResult content)

/-- The characters the replacement at a row reclaims. -/
def saving (index : Nat) : Nat :=
  match replacement rows protect retained index with
  | none => 0
  | some words => eligibleChars rows retained index - words.length

/-- The characters that could be reclaimed from a row on. -/
def savingsFrom (index : Nat) : Nat :=
  (((List.range rows.length).drop index).map (saving rows protect retained)).sum

/-- The replacements from a row on, the last one first. -/
def replacementsFrom (index : Nat) : List (Nat × Bytes) :=
  ((List.range rows.length).drop index).reverse.filterMap fun at_ =>
    (replacement rows protect retained at_).map (at_, ·)

/-- What the scan has found from a row on. -/
def scanned (index : Nat) : PruneScan where
  userTurns := userTurnsFrom rows index
  protectedChars := min (eligibleFrom rows retained index) sizeMax
  reclaimable := min (savingsFrom rows protect retained index) sizeMax
  candidates := replacementsFrom rows protect retained index

end

/-! ### The scan -/

section

variable {rows : List ConversationRow} {protect : Nat} {retained : List Bytes}

theorem range_drop {n index : Nat} (h : index < n) :
    (List.range n).drop index = index :: (List.range n).drop (index + 1) := by
  rw [List.drop_eq_getElem_cons (by rw [List.length_range]; exact h), List.getElem_range]

theorem saturatingAdd_min (a b : Nat) : saturatingAdd (min a sizeMax) b = min (a + b) sizeMax := by
  rw [saturatingAdd]
  omega

theorem eligibleFrom_eq {index : Nat} (h : index < rows.length) :
    eligibleFrom rows retained index =
      eligibleFrom rows retained (index + 1) + eligibleChars rows retained index := by
  rw [eligibleFrom, range_drop h, List.map_cons, List.sum_cons, Nat.add_comm]
  rfl

theorem savingsFrom_eq {index : Nat} (h : index < rows.length) :
    savingsFrom rows protect retained index =
      savingsFrom rows protect retained (index + 1) + saving rows protect retained index := by
  rw [savingsFrom, range_drop h, List.map_cons, List.sum_cons, Nat.add_comm]
  rfl

theorem replacementsFrom_eq {index : Nat} (h : index < rows.length) :
    replacementsFrom rows protect retained index =
      replacementsFrom rows protect retained (index + 1) ++
        ((replacement rows protect retained index).map (index, ·)).toList := by
  rw [replacementsFrom, range_drop h, List.reverse_cons, List.filterMap_append]
  congr 1

theorem userTurnsFrom_eq {index : Nat} {row : ConversationRow} (h : rows[index]? = some row) :
    userTurnsFrom rows index =
      userTurnsFrom rows (index + 1) + if row.kind = .user then 1 else 0 := by
  obtain ⟨hlt, rfl⟩ := List.getElem?_eq_some_iff.mp h
  rw [userTurnsFrom, List.drop_eq_getElem_cons hlt, List.countP_cons]
  simp [userTurnsFrom]

/-- A row that is no result that may be replaced adds to nothing else. -/
theorem scanned_of_not_eligible {index : Nat} (hlt : index < rows.length)
    (h : eligibleResult rows retained index = none) :
    scanned rows protect retained index =
      { scanned rows protect retained (index + 1) with
        userTurns := userTurnsFrom rows index } := by
  have hchars : eligibleChars rows retained index = 0 := by rw [eligibleChars, h]
  have hnone : replacement rows protect retained index = none := by rw [replacement, h]
  have hsaving : saving rows protect retained index = 0 := by rw [saving, hnone]
  rw [scanned, eligibleFrom_eq hlt, savingsFrom_eq hlt, replacementsFrom_eq hlt, hchars, hsaving,
    hnone]
  simp [scanned]

/-- **One row of the scan.** -/
theorem pruneStep_scanned {index : Nat} (hlt : index < rows.length) :
    pruneStep rows protect retained (scanned rows protect retained (index + 1)) index =
      scanned rows protect retained index := by
  obtain ⟨row, hrow⟩ : ∃ row, rows[index]? = some row := ⟨_, List.getElem?_eq_getElem hlt⟩
  have hturns := userTurnsFrom_eq hrow
  rw [pruneStep, hrow]
  dsimp only
  split_ifs with huser hskip
  · have hnone : eligibleResult rows retained index = none := by
      rw [eligibleResult, hrow]
      dsimp only
      rw [if_pos (.inr (by rw [huser]; decide))]
    rw [if_pos huser] at hturns
    rw [scanned_of_not_eligible hlt hnone, hturns]
    rfl
  · have hnone : eligibleResult rows retained index = none := by
      rw [eligibleResult, hrow]
      exact if_pos hskip
    rw [if_neg huser] at hturns
    rw [scanned_of_not_eligible hlt hnone, hturns]
    rfl
  · rw [if_neg huser, Nat.add_zero] at hturns
    have helig : eligibleResult rows retained index =
        (jsonStringRef row.message (lit "content")).filter fun content =>
          ¬ (content.length < kMinimumPrunableResultChars ∨
            kCompactedToolOutput.isPrefixOf content ∨ toolResultName rows index ∈ retained) := by
      rw [eligibleResult, hrow]
      exact if_neg hskip
    have hsame : eligibleResult rows retained index = none →
        scanned rows protect retained (index + 1) = scanned rows protect retained index := by
      intro hnone
      rw [scanned_of_not_eligible hlt hnone, hturns]
      rfl
    rcases hcontent : jsonStringRef row.message (lit "content") with - | content
    · rw [hcontent] at helig
      exact hsame helig
    · rw [hcontent] at helig
      dsimp only
      split_ifs with hout hstays
      · refine hsame (helig.trans ?_)
        rw [Option.filter_some, if_neg (by rw [decide_eq_true_iff]; exact not_not_intro hout)]
      · rw [Option.filter_some, if_pos (decide_eq_true hout)] at helig
        have hchars : eligibleChars rows retained index = content.length := by
          rw [eligibleChars, helig]
        have hnone : replacement rows protect retained index = none := by
          rw [replacement, helig]
          refine if_pos ?_
          rw [eligibleFrom_eq hlt, hchars, ← saturatingAdd_min]
          exact hstays
        have hsaving : saving rows protect retained index = 0 := by rw [saving, hnone]
        rw [scanned, scanned, eligibleFrom_eq hlt, savingsFrom_eq hlt, replacementsFrom_eq hlt,
          hchars, hsaving, hnone, hturns, saturatingAdd_min]
        simp
      · rw [Option.filter_some, if_pos (decide_eq_true hout)] at helig
        have hchars : eligibleChars rows retained index = content.length := by
          rw [eligibleChars, helig]
        have hsome : replacement rows protect retained index = some (compactedResult content) := by
          rw [replacement, helig]
          refine if_neg ?_
          rw [eligibleFrom_eq hlt, hchars, ← saturatingAdd_min]
          exact hstays
        have hsaving : saving rows protect retained index =
            content.length - (compactedResult content).length := by rw [saving, hsome, hchars]
        rw [scanned, scanned, eligibleFrom_eq hlt, savingsFrom_eq hlt, replacementsFrom_eq hlt,
          hchars, hsaving, hsome, hturns, saturatingAdd_min, saturatingAdd_min]
        rfl

/-- **The scan.**  It ends with what there is from the first row on. -/
theorem foldl_pruneStep :
    (List.range rows.length).reverse.foldl (pruneStep rows protect retained) {} =
      scanned rows protect retained 0 := by
  have hall : ∀ left index, rows.length - index = left → index ≤ rows.length →
      ((List.range rows.length).drop index).reverse.foldl (pruneStep rows protect retained) {} =
        scanned rows protect retained index := by
    intro left
    induction left with
    | zero =>
      intro index hleft hle
      have hend : index = rows.length := by omega
      have hnone : (List.range rows.length).drop index = [] :=
        List.drop_eq_nil_of_le (by rw [List.length_range]; omega)
      rw [hnone, scanned, userTurnsFrom, eligibleFrom, savingsFrom, replacementsFrom, hnone,
        List.drop_eq_nil_of_le hend.ge]
      rfl
    | succ left ih =>
      intro index hleft hle
      have hlt : index < rows.length := by omega
      rw [range_drop hlt, List.reverse_cons, List.foldl_append, ih (index + 1) (by omega) hlt]
      exact pruneStep_scanned hlt
  exact hall _ 0 rfl (Nat.zero_le _)

/-! ### The replacements -/

theorem eligibleResult_spec {index : Nat} {content : Bytes}
    (h : eligibleResult rows retained index = some content) :
    ∃ row, rows[index]? = some row ∧ row.kind = .toolResult ∧
      kProtectedUserTurns ≤ userTurnsFrom rows (index + 1) ∧
      jsonStringRef row.message (lit "content") = some content ∧
      kMinimumPrunableResultChars ≤ content.length ∧ ¬ kCompactedToolOutput <+: content ∧
      toolResultName rows index ∉ retained := by
  rw [eligibleResult] at h
  rcases hrow : rows[index]? with - | row
  · rw [hrow] at h
    exact absurd h (by simp)
  · rw [hrow] at h
    dsimp only at h
    split_ifs at h with hskip
    rw [not_or, not_lt, not_not] at hskip
    rw [Option.filter_eq_some_iff, decide_eq_true_iff, not_or, not_or, not_lt] at h
    exact ⟨row, rfl, hskip.2, hskip.1, h.1, h.2.1, by simpa using h.2.2.1, h.2.2.2⟩

/-- What a replacement comes to: the result is past the protected characters
and the replacement shorter. -/
theorem replacement_spec {index : Nat} {words : Bytes}
    (h : replacement rows protect retained index = some words) :
    ∃ content, eligibleResult rows retained index = some content ∧
      words = compactedResult content ∧ words.length < content.length ∧
      protect < eligibleFrom rows retained (index + 1) + content.length := by
  rw [replacement] at h
  rcases helig : eligibleResult rows retained index with - | content
  · rw [helig] at h
    exact absurd h (by simp)
  · rw [helig] at h
    dsimp only at h
    split_ifs at h with hstays
    rw [not_or, not_le, not_le] at hstays
    rw [Option.some_inj] at h
    have hlt : index < rows.length := by
      obtain ⟨row, hrow, -⟩ := eligibleResult_spec helig
      exact (List.getElem?_eq_some_iff.mp hrow).1
    have hchars : eligibleChars rows retained index = content.length := by
      rw [eligibleChars, helig]
    refine ⟨content, rfl, h.symm, h ▸ hstays.2, ?_⟩
    rw [← hchars, ← eligibleFrom_eq hlt]
    exact hstays.1.trans_le (min_le_left _ _)

variable (rows protect retained)

/-- A row with its replacement, if it is replaced. -/
def replacedRow (index : Nat) (row : ConversationRow) : ConversationRow :=
  match replacement rows protect retained index with
  | none => row
  | some words => setContent (.str words) row

/-- The rows with the replacements from a row on. -/
def replacedFrom (start : Nat) : List ConversationRow :=
  rows.mapIdx fun index row =>
    if start ≤ index then replacedRow rows protect retained index row else row

variable {rows protect retained}

theorem getElem?_replacedFrom (start index : Nat) :
    (replacedFrom rows protect retained start)[index]? =
      rows[index]?.map fun row =>
        if start ≤ index then replacedRow rows protect retained index row else row := by
  rw [replacedFrom, List.getElem?_mapIdx]

theorem replacedFrom_none {index : Nat} (h : replacement rows protect retained index = none) :
    replacedFrom rows protect retained (index + 1) = replacedFrom rows protect retained index := by
  apply List.ext_getElem?
  intro i
  rw [getElem?_replacedFrom, getElem?_replacedFrom]
  congr 1
  funext row
  rcases lt_trichotomy i index with hlt | rfl | hgt
  · rw [if_neg (by omega), if_neg (by omega)]
  · rw [if_neg (by omega), if_pos le_rfl, replacedRow, h]
  · rw [if_pos (by omega), if_pos hgt.le]

theorem replacedFrom_some {index : Nat} {words : Bytes}
    (h : replacement rows protect retained index = some words) :
    (replacedFrom rows protect retained (index + 1)).modify index (setContent (.str words)) =
      replacedFrom rows protect retained index := by
  apply List.ext_getElem?
  intro i
  rw [List.getElem?_modify, getElem?_replacedFrom, getElem?_replacedFrom, Option.map_eq_map,
    Option.map_map]
  congr 1
  funext row
  rw [Function.comp_apply]
  rcases lt_trichotomy i index with hlt | rfl | hgt
  · rw [if_neg (by omega), if_neg (by omega), if_neg (by omega)]
  · rw [if_pos rfl, if_neg (by omega), if_pos le_rfl, replacedRow, h]
  · rw [if_neg (by omega), if_pos (by omega), if_pos hgt.le]

/-- **The replacements.**  They reclaim what the scan counted. -/
theorem foldl_replaceResult (start : Nat) (hstart : start ≤ rows.length) :
    (replacementsFrom rows protect retained start).foldl replaceResult (rows, {}) =
      (replacedFrom rows protect retained start,
        { results := (replacementsFrom rows protect retained start).length
          reclaimedChars := savingsFrom rows protect retained start }) := by
  induction hleft : rows.length - start generalizing start with
  | zero =>
    have hnone : (List.range rows.length).drop start = [] :=
      List.drop_eq_nil_of_le (by rw [List.length_range]; omega)
    have hrows : replacedFrom rows protect retained start = rows := by
      apply List.ext_getElem?
      intro i
      rw [getElem?_replacedFrom]
      rcases lt_or_ge i start with hlt | hge
      · simp [not_le.mpr hlt]
      · rw [List.getElem?_eq_none (by omega)]
        rfl
    rw [hrows, savingsFrom, replacementsFrom, hnone]
    rfl
  | succ left ih =>
    have hlt : start < rows.length := by omega
    rw [replacementsFrom_eq hlt, List.foldl_append, ih (start + 1) hlt (by omega),
      savingsFrom_eq hlt, List.length_append]
    rcases hword : replacement rows protect retained start with - | words
    · have hsaving : saving rows protect retained start = 0 := by rw [saving, hword]
      rw [replacedFrom_none hword, hsaving]
      rfl
    · obtain ⟨content, helig, rfl, -, -⟩ := replacement_spec hword
      obtain ⟨row, hrow, -, -, hcontent, -⟩ := eligibleResult_spec helig
      have hsaving : saving rows protect retained start =
          content.length - (compactedResult content).length := by
        rw [saving, hword, eligibleChars, helig]
      have hold : (replacedFrom rows protect retained (start + 1))[start]? = some row := by
        rw [getElem?_replacedFrom, hrow, Option.map_some, if_neg (by omega)]
      show replaceResult _ (start, _) = _
      rw [replaceResult, hold, replacedFrom_some hword, Option.bind_some, hcontent, hsaving]
      rfl

end

/-! ### Sizes -/

/-- The characters of a message's content, if that is a text. -/
def contentLength (row : ConversationRow) : Nat :=
  match jsonStringRef row.message (lit "content") with
  | none => 0
  | some content => content.length

/-- The characters of all contents. -/
def contentSize (rows : List ConversationRow) : Nat := (rows.map contentLength).sum

theorem jsonStringRef_setContent {row : ConversationRow} {content : Bytes}
    (h : jsonStringRef row.message (lit "content") = some content) (words : Bytes) :
    jsonStringRef (setContent (.str words) row).message (lit "content") = some words := by
  have hobject : row.message.isObject := by
    rw [jsonStringRef] at h
    split at h
    · rename_i hget
      exact Json.isObject_of_get? hget
    · exact absurd h (by simp)
  rw [jsonStringRef, setContent, Json.get?_set hobject, if_pos rfl]

theorem sum_mapIdx {α : Type*} (size : α → Nat) (l : List α) : ∀ (f : Nat → α → α) (less : Nat → Nat),
    (∀ i x, l[i]? = some x → size (f i x) + less i = size x) →
    ((l.mapIdx f).map size).sum + ((List.range l.length).map less).sum = (l.map size).sum := by
  induction l with
  | nil =>
    intro f less _
    rfl
  | cons a l ih =>
    intro f less h
    have hhead := h 0 a rfl
    have htail := ih (fun i => f (i + 1)) (fun i => less (i + 1)) fun i x hx => h (i + 1) x hx
    rw [List.mapIdx_cons, List.length_cons, List.range_succ_eq_map]
    simp only [List.map_cons, List.sum_cons, List.map_map, Function.comp_def, Nat.succ_eq_add_one]
    omega

theorem replacedFrom_zero (rows : List ConversationRow) (protect : Nat) (retained : List Bytes) :
    replacedFrom rows protect retained 0 = rows.mapIdx (replacedRow rows protect retained) := by
  rw [replacedFrom]
  simp only [Nat.zero_le, if_true]

theorem contentSize_replaced (rows : List ConversationRow) (protect : Nat) (retained : List Bytes) :
    contentSize (replacedFrom rows protect retained 0) + savingsFrom rows protect retained 0 =
      contentSize rows := by
  rw [replacedFrom_zero]
  apply sum_mapIdx
  intro index row hrow
  rcases hword : replacement rows protect retained index with - | words
  · rw [replacedRow, saving, hword]
    rfl
  · obtain ⟨content, helig, -, hshorter, -⟩ := replacement_spec hword
    obtain ⟨row', hrow', -, -, hcontent, -⟩ := eligibleResult_spec helig
    rw [hrow, Option.some_inj] at hrow'
    subst hrow'
    rw [replacedRow, saving, hword, eligibleChars, helig]
    rw [contentLength, contentLength, jsonStringRef_setContent hcontent, hcontent]
    exact Nat.add_sub_cancel' hshorter.le

/-! ### The effect -/

/-- What a pruning may do to a conversation. -/
structure PruneEffect (c : Conversation) (protect minimum : Nat) (retained : List Bytes)
    (out : Conversation × ToolTracePruneResult) : Prop where
  /-- Nothing, when it is switched off or would reclaim too little, or every
  replacement there is. -/
  choice :
    (minimum = 0 ∨ min (savingsFrom c.rows protect retained 0) sizeMax < minimum) ∧
        out = (c, {}) ∨
      (minimum ≠ 0 ∧ minimum ≤ min (savingsFrom c.rows protect retained 0) sizeMax) ∧
        out.1 = { c with rows := c.rows.mapIdx (replacedRow c.rows protect retained) }
  /-- A row that changed is an old result of a tool whose output is not
  retained, not wholly within the protected characters; it got a shorter
  text. -/
  changed : ∀ index : Nat, out.1.rows[index]? ≠ c.rows[index]? →
    ∃ row content, c.rows[index]? = some row ∧ row.kind = .toolResult ∧
      jsonStringRef row.message (lit "content") = some content ∧
      out.1.rows[index]? = some (setContent (.str (compactedResult content)) row) ∧
      (compactedResult content).length < content.length ∧
      2 ≤ (c.rows.drop (index + 1)).countP userRow ∧
      toolResultName c.rows index ∉ retained ∧
      protect < eligibleFrom c.rows retained (index + 1) + content.length
  reclaimed : contentSize c.rows = contentSize out.1.rows + out.2.reclaimedChars
  length : out.1.rows.length = c.rows.length
  ids : out.1.displayIds = c.displayIds
  kinds : out.1.kinds = c.kinds
  calls : out.1.messages.map (fun message => jsonValueStr message (lit "tool_call_id") []) =
    c.messages.map (fun message => jsonValueStr message (lit "tool_call_id") [])
  /-- What was replaced stays as it is when the pruning runs again. -/
  again : ∀ index : Nat, out.1.rows[index]? ≠ c.rows[index]? →
    (out.1.pruneOldToolResults protect minimum retained).1.rows[index]? = out.1.rows[index]?

/-- **Pruning**, as one case distinction. -/
theorem pruneOldToolResults_eq (c : Conversation) (protect minimum : Nat) (retained : List Bytes) :
    c.pruneOldToolResults protect minimum retained =
      if minimum = 0 ∨ min (savingsFrom c.rows protect retained 0) sizeMax < minimum then (c, {})
      else
        ({ c with rows := c.rows.mapIdx (replacedRow c.rows protect retained) },
          { results := (replacementsFrom c.rows protect retained 0).length
            reclaimedChars := savingsFrom c.rows protect retained 0 }) := by
  rw [pruneOldToolResults]
  by_cases hoff : minimum = 0
  · rw [if_pos hoff, if_pos (.inl hoff)]
  · have hreclaimable : (scanned c.rows protect retained 0).reclaimable =
        min (savingsFrom c.rows protect retained 0) sizeMax := rfl
    have hcandidates : (scanned c.rows protect retained 0).candidates =
        replacementsFrom c.rows protect retained 0 := rfl
    have hreplaced := @foldl_replaceResult c.rows protect retained 0
      (Nat.zero_le c.rows.length)
    rw [replacedFrom_zero] at hreplaced
    rw [if_neg hoff, foldl_pruneStep]
    dsimp only
    rw [hreclaimable, hcandidates, hreplaced]
    by_cases hless : min (savingsFrom c.rows protect retained 0) sizeMax < minimum
    · rw [if_pos hless, if_pos (Or.inr hless)]
    · rw [if_neg hless, if_neg (not_or.mpr ⟨hoff, hless⟩)]

theorem map_mapIdx_same {α β : Type*} {g : α → β} {f : Nat → α → α} (h : ∀ i x, g (f i x) = g x)
    (l : List α) : (l.mapIdx f).map g = l.map g := by
  apply List.ext_getElem?
  intro i
  rw [List.getElem?_map, List.getElem?_mapIdx, List.getElem?_map, Option.map_map]
  congr 1
  funext x
  exact h i x

theorem replacedRow_cases (rows : List ConversationRow) (protect : Nat) (retained : List Bytes)
    (index : Nat) (row : ConversationRow) :
    replacedRow rows protect retained index row = row ∨
      ∃ words, replacement rows protect retained index = some words ∧
        replacedRow rows protect retained index row = setContent (.str words) row := by
  rw [replacedRow]
  rcases hword : replacement rows protect retained index with - | words
  · exact .inl rfl
  · exact .inr ⟨words, rfl, rfl⟩

/-- A replaced result is not replaced again. -/
theorem replacement_of_compacted {rows : List ConversationRow} {index : Nat}
    {row : ConversationRow} {content : Bytes} (hrow : rows[index]? = some row)
    (hcontent : jsonStringRef row.message (lit "content") = some content)
    (hmarked : kCompactedToolOutput <+: content) (protect : Nat) (retained : List Bytes) :
    replacement rows protect retained index = none := by
  rcases hword : replacement rows protect retained index with - | words
  · rfl
  · obtain ⟨content', helig, -⟩ := replacement_spec hword
    obtain ⟨row', hrow', -, -, hcontent', -, hfresh, -⟩ := eligibleResult_spec helig
    rw [hrow, Option.some_inj] at hrow'
    subst hrow'
    rw [hcontent, Option.some_inj] at hcontent'
    exact absurd (hcontent' ▸ hmarked) hfresh

theorem marked_compactedResult (content : Bytes) :
    kCompactedToolOutput <+: compactedResult content := by
  rw [compactedResult]
  simp only [List.append_assoc]
  exact List.prefix_append _ _

/-- A row that the replacements change. -/
theorem changed_of_ne {c : Conversation} {protect : Nat} {retained : List Bytes} {index : Nat}
    (h : (c.rows.mapIdx (replacedRow c.rows protect retained))[index]? ≠ c.rows[index]?) :
    ∃ row content, c.rows[index]? = some row ∧ row.kind = .toolResult ∧
      jsonStringRef row.message (lit "content") = some content ∧
      (c.rows.mapIdx (replacedRow c.rows protect retained))[index]? =
        some (setContent (.str (compactedResult content)) row) ∧
      (compactedResult content).length < content.length ∧
      2 ≤ (c.rows.drop (index + 1)).countP userRow ∧
      toolResultName c.rows index ∉ retained ∧
      protect < eligibleFrom c.rows retained (index + 1) + content.length := by
  rw [List.getElem?_mapIdx] at h ⊢
  rcases hrow : c.rows[index]? with - | row
  · rw [hrow] at h
    exact absurd rfl h
  · rw [hrow, Option.map_some, Ne, Option.some_inj] at h
    rcases replacedRow_cases c.rows protect retained index row with hsame | ⟨words, hword, hset⟩
    · exact absurd hsame h
    · obtain ⟨content, helig, rfl, hshorter, hpast⟩ := replacement_spec hword
      obtain ⟨row', hrow', hkind, hturns, hcontent, -, -, hname⟩ := eligibleResult_spec helig
      rw [hrow, Option.some_inj] at hrow'
      subst hrow'
      refine ⟨row, content, rfl, hkind, hcontent, ?_, hshorter, hturns.trans ?_, hname, hpast⟩
      · rw [Option.map_some, hset]
      · refine List.countP_mono_left fun other _ huser => ?_
        rw [userRow, of_decide_eq_true huser]
        rfl

/-- **What a pruning may do**: nothing, or replace results older than the
second-newest user message that do not lie wholly within the protected
characters, each by a shorter text. -/
theorem pruneOldToolResults_effect (c : Conversation) (protect minimum : Nat)
    (retained : List Bytes) :
    PruneEffect c protect minimum retained (c.pruneOldToolResults protect minimum retained) := by
  rw [pruneOldToolResults_eq]
  by_cases hoff : minimum = 0 ∨ min (savingsFrom c.rows protect retained 0) sizeMax < minimum
  · rw [if_pos hoff]
    exact
      { choice := .inl ⟨hoff, rfl⟩
        changed := fun _ h => absurd rfl h
        reclaimed := rfl
        length := rfl
        ids := rfl
        kinds := rfl
        calls := rfl
        again := fun _ h => absurd rfl h }
  · rw [if_neg hoff]
    rw [not_or, not_lt] at hoff
    refine
      { choice := .inr ⟨hoff, rfl⟩
        changed := fun index h => changed_of_ne h
        reclaimed := ?_
        length := List.length_mapIdx
        ids := map_mapIdx_same (fun index row => ?_) _
        kinds := map_mapIdx_same (fun index row => ?_) _
        calls := ?_
        again := fun index h => ?_ }
    · rw [← replacedFrom_zero]
      exact (contentSize_replaced c.rows protect retained).symm
    · rcases replacedRow_cases c.rows protect retained index row with hsame | ⟨_, -, hset⟩
      · rw [hsame]
      · rw [hset]
        rfl
    · rcases replacedRow_cases c.rows protect retained index row with hsame | ⟨_, -, hset⟩
      · rw [hsame]
      · rw [hset]
        rfl
    · rw [messages, messages, List.map_map, List.map_map]
      refine map_mapIdx_same (fun index row => ?_) _
      rcases replacedRow_cases c.rows protect retained index row with hsame | ⟨words, -, hset⟩
      · rw [hsame]
      · rw [hset]
        show jsonValueStr (row.message.set (lit "content") (.str words)) (lit "tool_call_id") [] =
          jsonValueStr row.message (lit "tool_call_id") []
        rw [jsonValueStr, jsonValueStr, Json.get?_set_ne _ _ (by decide)]
    · obtain ⟨row, content, hrow, -, hcontent, hnew, -⟩ := changed_of_ne h
      rw [pruneOldToolResults_eq]
      split_ifs
      · rfl
      · have hstays := replacement_of_compacted hnew (jsonStringRef_setContent hcontent _)
          (marked_compactedResult content) protect retained
        show (List.mapIdx _ _)[index]? = _
        rw [List.getElem?_mapIdx, hnew, Option.map_some, replacedRow, hstays]

/-- A long result, two turns ago. -/
def longResult : Conversation where
  rows :=
    [⟨.ofFields [(lit "role", .str (lit "user")), (lit "content", .str (lit "list"))], .user, 1⟩,
      ⟨.ofFields [(lit "role", .str (lit "tool")), (lit "tool_call_id", .str (lit "call-1")),
        (lit "content", .str (List.replicate 1200 (ch 'a')))], .toolResult, 2⟩,
      ⟨.ofFields [(lit "role", .str (lit "user")), (lit "content", .str (lit "on"))], .user, 3⟩,
      ⟨.ofFields [(lit "role", .str (lit "user")), (lit "content", .str (lit "on"))], .user, 4⟩]
  nextDisplayId := 5

/-- With 1000 characters protected, the result that holds them is replaced
whole; with the least to reclaim being none, nothing is. -/
theorem straddling_result_replaced :
    (¬ ∀ index : Nat,
        (longResult.pruneOldToolResults 1000 1 []).1.rows[index]? ≠ longResult.rows[index]? →
          1000 ≤ eligibleFrom longResult.rows [] (index + 1)) ∧
      ¬ ((longResult.pruneOldToolResults 1000 0 []).1.rows ≠ longResult.rows ∨
        savingsFrom longResult.rows 1000 [] 0 < 0) := by
  constructor
  · intro h
    have hchanged : (longResult.pruneOldToolResults 1000 1 []).1.rows[1]? ≠ longResult.rows[1]? := by
      decide +kernel
    have hnone : eligibleFrom longResult.rows [] 2 = 0 := by decide
    have hbound := h 1 hchanged
    rw [hnone] at hbound
    exact absurd hbound (by decide)
  · rintro (hrows | hless)
    · exact hrows rfl
    · exact absurd hless (Nat.not_lt_zero _)

end Conversation

end UAgent
