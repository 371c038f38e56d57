/-
UAgent/Agent/CompactionKept.lean

What a compaction keeps word for word: of the skills each text once and whole,
of what the user said the newest texts, one after another, as far as their
budget goes.

Both loops run from the newest row to the oldest, and the results are stated
the other way round, as the texts are said again.
-/
import UAgent.Agent.Compaction
import UAgent.Base.Fitting

namespace UAgent

open Bytes Fitting

/-! ### Budgets -/

theorem windowShare_pos (window : Int64) (share : Nat) {cap : Nat} (h : 0 < cap) :
    0 < windowShare window share cap := by
  unfold windowShare
  split_ifs
  · exact lt_min h (lt_of_lt_of_le (by decide) (le_max_left _ _))
  · exact h

/-! ### Skills -/

/-- Skills kept of rows: each the text of one of them, none twice, none cut. -/
structure KeptSkills (cap : Nat) (rows : List ConversationRow) (kept : List Bytes) : Prop where
  nodup : kept.Nodup
  within : (kept.map List.length).sum ≤ cap
  opened : ∀ content ∈ kept, ∃ row ∈ rows, skillText row = some content
  count : kept.length ≤ rows.length

theorem keptSkills_nil (cap : Nat) : KeptSkills cap [] [] :=
  ⟨List.nodup_nil, Nat.zero_le _, by simp, le_rfl⟩

theorem KeptSkills.skip {cap : Nat} {seen : List ConversationRow} {kept : List Bytes}
    (h : KeptSkills cap seen kept) (row : ConversationRow) :
    KeptSkills cap (seen ++ [row]) kept where
  nodup := h.nodup
  within := h.within
  opened content hkept := by
    obtain ⟨opener, hmem, htext⟩ := h.opened content hkept
    exact ⟨opener, List.mem_append_left _ hmem, htext⟩
  count := by
    rw [List.length_append]
    exact Nat.le_add_right_of_le h.count

/-- A text that is new and still fits is kept. -/
theorem KeptSkills.keep {cap remaining : Nat} {seen : List ConversationRow} {kept : List Bytes}
    {row : ConversationRow} {content : Bytes} (h : KeptSkills cap seen kept)
    (hbudget : (kept.map List.length).sum + remaining = cap) (htext : skillText row = some content)
    (hfits : content.length ≤ remaining) (hnew : content ∉ kept) :
    KeptSkills cap (seen ++ [row]) (kept ++ [content]) where
  nodup := by
    rw [List.nodup_append]
    refine ⟨h.nodup, List.nodup_singleton _, ?_⟩
    rintro a ha b hb rfl
    exact hnew (List.mem_singleton.mp hb ▸ ha)
  within := by
    rw [List.map_append, List.sum_append, List.map_singleton, List.sum_singleton]
    omega
  opened a ha := by
    rcases List.mem_append.mp ha with ha | ha
    · exact (h.skip row).opened a ha
    · obtain rfl := List.mem_singleton.mp ha
      exact ⟨row, List.mem_append_right _ (List.mem_singleton_self _), htext⟩
  count := by
    rw [List.length_append, List.length_append]
    exact Nat.add_le_add_right h.count 1

/-- What the loop has kept when it has seen some rows, it keeps of all. -/
theorem keptSkills_keepSkills {cap remaining : Nat} {seen : List ConversationRow}
    {kept : List Bytes} (rows : List ConversationRow) (h : KeptSkills cap seen kept)
    (hbudget : (kept.map List.length).sum + remaining = cap) :
    KeptSkills cap (seen ++ rows) (keepSkills remaining kept rows) := by
  induction rows generalizing seen kept remaining with
  | nil =>
    rw [List.append_nil]
    exact h
  | cons row rows ih =>
    have hseen : seen ++ row :: rows = seen ++ [row] ++ rows := by simp
    rw [hseen, keepSkills]
    cases htext : skillText row with
    | none => exact ih (h.skip row) hbudget
    | some content =>
      show KeptSkills cap _ (if _ then _ else _)
      split_ifs with hout
      · exact ih (h.skip row) hbudget
      · obtain ⟨hfits, hnew⟩ := not_or.mp hout
        refine ih (h.keep hbudget htext (not_lt.mp hfits) hnew) ?_
        rw [List.map_append, List.sum_append, List.map_singleton, List.sum_singleton]
        omega

theorem KeptSkills.reverse {cap : Nat} {rows : List ConversationRow} {kept : List Bytes}
    (h : KeptSkills cap rows.reverse kept) : KeptSkills cap rows kept.reverse where
  nodup := List.nodup_reverse.mpr h.nodup
  within := by
    rw [List.map_reverse, List.sum_reverse]
    exact h.within
  opened content hkept := by
    obtain ⟨row, hmem, htext⟩ := h.opened content (List.mem_reverse.mp hkept)
    exact ⟨row, List.mem_reverse.mp hmem, htext⟩
  count := by
    have hcount := h.count
    rwa [List.length_reverse] at hcount ⊢

/-! ### What the user said -/

/-- What a message of the user says, with its id; nothing where its content is
no text. -/
def saidText (row : ConversationRow) : Option (Bytes × UInt64) :=
  if isUserMessage row.message row.kind then
    (jsonStringRef row.message (lit "content")).map (·, row.id)
  else none

/-- What a row says that the scan for the user's words takes. -/
def scannedText (row : ConversationRow) : Option (Bytes × UInt64) :=
  if row.kind = .user then (jsonStringRef row.message (lit "content")).map (·, row.id) else none

/-- Every message of the user is a text of its own kind. -/
def PlainUsers (rows : List ConversationRow) : Prop :=
  ∀ row ∈ rows, isUserMessage row.message row.kind = true →
    row.kind = .user ∧ (jsonStringRef row.message (lit "content")).isSome

theorem saidText_of_scannedText {row : ConversationRow} {said : Bytes × UInt64}
    (h : scannedText row = some said) : saidText row = some said := by
  unfold scannedText at h
  split_ifs at h with hkind
  unfold saidText
  rw [if_pos (by rw [hkind]; rfl)]
  exact h

/-- What is scanned is said, in the same order. -/
theorem scannedText_sublist (rows : List ConversationRow) :
    (rows.filterMap scannedText).Sublist (rows.filterMap saidText) := by
  induction rows with
  | nil => exact List.Sublist.slnil
  | cons row rows ih =>
    cases hscan : scannedText row with
    | none =>
      rw [List.filterMap_cons_none hscan]
      cases hsaid : saidText row with
      | none => rwa [List.filterMap_cons_none hsaid]
      | some said =>
        rw [List.filterMap_cons_some hsaid]
        exact ih.cons said
    | some said =>
      rw [List.filterMap_cons_some hscan, List.filterMap_cons_some (saidText_of_scannedText hscan)]
      exact ih.cons_cons said

/-- Where the user's messages are plain, all of them are scanned. -/
theorem PlainUsers.scannedText {rows : List ConversationRow} (h : PlainUsers rows) :
    rows.filterMap scannedText = rows.filterMap saidText := by
  refine List.filterMap_congr fun row hrow => ?_
  unfold UAgent.scannedText saidText
  by_cases huser : isUserMessage row.message row.kind = true
  · rw [if_pos huser, if_pos (h row hrow huser).1]
  · rw [if_neg huser, if_neg fun hkind => huser (by rw [hkind]; rfl)]

/-- The bytes of a text. -/
def saidBytes (said : Bytes × UInt64) : Nat := said.1.length

/-- Texts kept of those said, the oldest first: the newest of them, one after
another, as far as a budget goes; of a newest one that is alone beyond it, its
head and tail. -/
def KeepsNewest (cap : Nat) (said kept : List (Bytes × UInt64)) : Prop :=
  (kept <:+ said ∧ (said ≠ [] → kept ≠ []) ∧ (kept.map saidBytes).sum ≤ cap ∧
    ∀ older, older :: kept <:+ said → cap < ((older :: kept).map saidBytes).sum) ∨
  ∃ newest, said.getLast? = some newest ∧ cap < newest.1.length ∧
    kept = [(headTail newest.1 cap, newest.2)]

/-- The loop once it has kept something. -/
theorem keepUsers_of_ne_nil {kept : List (Bytes × UInt64)} (h : kept ≠ []) (remaining : Nat)
    (rows : List ConversationRow) :
    keepUsers remaining kept rows =
      kept ++ fitting saidBytes remaining (rows.filterMap scannedText) := by
  induction rows generalizing kept remaining with
  | nil => exact (List.append_nil kept).symm
  | cons row rows ih =>
    rw [keepUsers]
    by_cases hkind : row.kind = .user
    · rw [if_neg (not_not.mpr hkind)]
      cases htext : jsonStringRef row.message (lit "content") with
      | none =>
        have hskip : scannedText row = none := by rw [scannedText, if_pos hkind, htext]; rfl
        rw [List.filterMap_cons_none hskip]
        exact ih h remaining
      | some content =>
        have hscan : scannedText row = some (content, row.id) := by
          rw [scannedText, if_pos hkind, htext]; rfl
        rw [List.filterMap_cons_some hscan]
        show (if saidBytes (content, row.id) ≤ remaining then _ else _) = _
        rcases Nat.lt_or_ge remaining (saidBytes (content, row.id)) with hlt | hle
        · rw [if_neg (not_le.mpr hlt), if_neg fun hnil => h hnil.1, fitting_cons_of_lt hlt,
            List.append_nil]
        · rw [if_pos hle, ih (List.append_ne_nil_of_left_ne_nil h _), fitting_cons_of_le hle,
            List.append_assoc]
          rfl
    · have hskip : scannedText row = none := if_neg hkind
      rw [if_pos hkind, List.filterMap_cons_none hskip]
      exact ih h remaining

/-- The loop from its beginning. -/
theorem keepUsers_nil {cap : Nat} (hcap : 0 < cap) (rows : List ConversationRow) :
    ((∀ newest, (rows.filterMap scannedText).head? = some newest → newest.1.length ≤ cap) ∧
        keepUsers cap [] rows = fitting saidBytes cap (rows.filterMap scannedText)) ∨
      ∃ newest, (rows.filterMap scannedText).head? = some newest ∧ cap < newest.1.length ∧
        keepUsers cap [] rows = [(headTail newest.1 cap, newest.2)] := by
  induction rows with
  | nil => exact .inl ⟨fun _ hnone => absurd hnone (Option.some_ne_none _).symm, rfl⟩
  | cons row rows ih =>
    rw [keepUsers]
    by_cases hkind : row.kind = .user
    · rw [if_neg (not_not.mpr hkind)]
      cases htext : jsonStringRef row.message (lit "content") with
      | none =>
        have hskip : scannedText row = none := by rw [scannedText, if_pos hkind, htext]; rfl
        rw [List.filterMap_cons_none hskip]
        exact ih
      | some content =>
        have hscan : scannedText row = some (content, row.id) := by
          rw [scannedText, if_pos hkind, htext]; rfl
        rw [List.filterMap_cons_some hscan]
        rcases Nat.lt_or_ge cap (saidBytes (content, row.id)) with hlt | hle
        · refine .inr ⟨(content, row.id), rfl, hlt, ?_⟩
          show (if saidBytes (content, row.id) ≤ cap then _ else _) = _
          rw [if_neg (not_le.mpr hlt), if_pos ⟨rfl, hcap⟩]
        · refine .inl ⟨fun newest hnewest => Option.some.inj hnewest ▸ hle, ?_⟩
          show (if saidBytes (content, row.id) ≤ cap then _ else _) = _
          rw [if_pos hle, keepUsers_of_ne_nil (List.append_ne_nil_of_right_ne_nil _ (by simp)),
            fitting_cons_of_le hle]
          rfl
    · have hskip : scannedText row = none := if_neg hkind
      rw [if_pos hkind, List.filterMap_cons_none hskip]
      exact ih

/-- What a budget holds of a list from its end. -/
theorem keepsNewest_fitting (cap : Nat) (said : List (Bytes × UInt64))
    (h : ∀ newest, said.reverse.head? = some newest → newest.1.length ≤ cap) :
    KeepsNewest cap said (fitting saidBytes cap said.reverse).reverse := by
  refine .inl ⟨?_, ?_, ?_, ?_⟩
  · have hpre := List.reverse_suffix.mpr (@fitting_isPrefix _ saidBytes cap said.reverse)
    rwa [List.reverse_reverse] at hpre
  · intro hsaid hkept
    have hnil := List.reverse_eq_nil_iff.mp hkept
    cases hrev : said.reverse with
    | nil => exact hsaid (List.reverse_eq_nil_iff.mp hrev)
    | cons newest older =>
      rw [hrev] at h hnil
      exact @fitting_ne_nil _ saidBytes cap newest (h newest rfl) older hnil
  · rw [List.map_reverse, List.sum_reverse]
    exact sum_fitting_le cap _
  · intro older holder
    have hpre : fitting saidBytes cap said.reverse ++ [older] <+: said.reverse := by
      rw [← List.reverse_suffix]
      simpa using holder
    have hlt := lt_sum_of_fitting cap said.reverse older hpre
    rw [List.map_cons, List.sum_cons, List.map_reverse, List.sum_reverse]
    rw [List.map_append, List.sum_append, List.map_singleton, List.sum_singleton] at hlt
    omega

/-- What the scan keeps of the texts it takes. -/
theorem keepsNewest_keepUsers {cap : Nat} (hcap : 0 < cap) (rows : List ConversationRow) :
    KeepsNewest cap (rows.filterMap scannedText) (keepUsers cap [] rows.reverse).reverse := by
  have hrev : rows.reverse.filterMap scannedText = (rows.filterMap scannedText).reverse :=
    List.filterMap_reverse
  rcases keepUsers_nil hcap rows.reverse with ⟨hfits, hkept⟩ | ⟨newest, hnewest, hbeyond, hcut⟩
  · rw [hkept, hrev]
    rw [hrev] at hfits
    exact keepsNewest_fitting cap _ hfits
  · refine .inr ⟨newest, ?_, hbeyond, ?_⟩
    · rw [hrev, List.head?_reverse] at hnewest
      exact hnewest
    · rw [hcut]
      rfl

end UAgent
