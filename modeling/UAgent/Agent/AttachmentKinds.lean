/-
UAgent/Agent/AttachmentKinds.lean

What processing a turn's attachments does to the numbers of the user's
messages (`Conversation::PruneAttachments`, src/agent/conversation.cc).

A message that carries attachments counts as the user's unless the files were
attached on request.  Once they are processed it stops being an attachment
and becomes a user message when it stands at the turn's start, an internal one
anywhere else.  A message steered into the turn with a file on it stands
elsewhere and is the user's all the same.

Main result: `pruneAttachments_keepsNumbers_iff`: the numbering of the user's
messages survives if and only if every message that is reclassified counts as
the user's exactly when it stands at the start.
-/
import UAgent.Agent.TurnNumbers

namespace UAgent

open Bytes

/-! ### Standing -/

/-- The message counts as the user's. -/
def userRow (row : ConversationRow) : Bool := isUserMessage row.message row.kind

/-- Rows of one message: the same id and the same standing. -/
def SameStanding (row row' : ConversationRow) : Prop := row'.id = row.id ∧ userRow row' = userRow row

namespace Conversation

/-- Every number of the user's messages is the same: their standing, the
number each id has, the count of turns and where a truncation cuts. -/
structure KeepsNumbers (before after : Conversation) : Prop where
  standing : after.rows.map userRow = before.rows.map userRow
  number : ∀ id, after.userMessageNumber id = before.userMessageNumber id
  turns : after.userTurns = before.userTurns
  cut : ∀ turn, userTurnFrom turn 0 after.rows = userTurnFrom turn 0 before.rows

theorem userMessageFrom_congr (id : UInt64) {rows rows' : List ConversationRow}
    (h : List.Forall₂ SameStanding rows rows') (seen : Nat) :
    userMessageFrom id seen rows' = userMessageFrom id seen rows := by
  induction h generalizing seen with
  | nil => rfl
  | cons hrow _ ih =>
    obtain ⟨hid, hstands⟩ := hrow
    rw [userRow, userRow] at hstands
    rw [userMessageFrom, userMessageFrom, hstands, hid, ih, ih]

theorem userTurnFrom_congr (turn : Int) {rows rows' : List ConversationRow}
    (h : List.Forall₂ SameStanding rows rows') (seen : Int) :
    userTurnFrom turn seen rows' = userTurnFrom turn seen rows := by
  induction h generalizing seen with
  | nil => rfl
  | cons hrow _ ih =>
    have hstands := hrow.2
    rw [userRow, userRow] at hstands
    rw [userTurnFrom, userTurnFrom, hstands, ih, ih]

theorem userTurns_eq (c : Conversation) : c.userTurns = (c.rows.map userRow).count true := by
  rw [List.count, List.countP_map, userTurns]
  refine List.countP_congr fun row _ => ?_
  show isUserMessage row.message row.kind = true ↔ (userRow row == true) = true
  simp [userRow]

theorem standing_congr {rows rows' : List ConversationRow}
    (h : List.Forall₂ SameStanding rows rows') : rows'.map userRow = rows.map userRow := by
  induction h with
  | nil => rfl
  | cons hrow _ ih => rw [List.map_cons, List.map_cons, hrow.2, ih]

/-- The numbers follow from ids and standings alone. -/
theorem keepsNumbers_of_same {before after : Conversation}
    (h : List.Forall₂ SameStanding before.rows after.rows) : KeepsNumbers before after := by
  have hstanding := standing_congr h
  refine ⟨hstanding, fun id => userMessageFrom_congr id h 0, ?_, fun turn => ?_⟩
  · rw [userTurns_eq, userTurns_eq, hstanding]
  · exact userTurnFrom_congr turn h 0

/-! ### Reclassified messages -/

/-- The message is an attachment that the call processes: its content is a
list of parts, with a file among them or from the turn's start on. -/
def Reclassified (first index : Nat) (row : ConversationRow) : Prop :=
  row.kind = .attachment ∧ ∃ parts, jsonArray row.message (lit "content") = some parts ∧
    (parts.any isAttachmentPart ∨ first ≤ index)

theorem userRow_of_not_attachment {row : ConversationRow} (h : row.kind ≠ .attachment)
    (content : Json) : userRow (setContent content row) = userRow row := by
  obtain ⟨message, kind, id⟩ := row
  cases kind
  case attachment => exact absurd rfl h
  all_goals rfl

theorem pruneRow_id (first index : Nat) (route : Bytes) (row : ConversationRow) :
    (pruneRow first route index row).1.id = row.id := by
  rw [pruneRow]
  split
  · rfl
  · split_ifs <;> rfl

/-- A message that is not reclassified stands as before. -/
theorem userRow_pruneRow_of_not {first index : Nat} {row : ConversationRow}
    (h : ¬ Reclassified first index row) (route : Bytes) :
    userRow (pruneRow first route index row).1 = userRow row := by
  by_cases hkind : row.kind = .attachment
  · rw [pruneRow]
    split
    · rfl
    · rename_i parts hparts
      have hnone : ¬ (parts.any isAttachmentPart ∨ first ≤ index) :=
        fun hparts' => h ⟨hkind, parts, hparts, hparts'⟩
      rw [not_or] at hnone
      rw [if_neg hnone.1, if_pos (not_le.mp hnone.2)]
  · have hprocessed : ∀ content : Json,
        userRow { setContent content row with kind := prunedKind first index row.kind } =
          userRow row := by
      intro content
      rw [prunedKind, if_neg hkind]
      exact userRow_of_not_attachment hkind content
    rw [pruneRow]
    split
    · rfl
    · split_ifs
      · exact hprocessed _
      · rfl
      · exact hprocessed _

/-- A reclassified message is the user's where the turn starts, and only
there. -/
theorem userRow_pruneRow_of_reclassified {first index : Nat} {row : ConversationRow}
    (h : Reclassified first index row) (route : Bytes) :
    userRow (pruneRow first route index row).1 = decide (index = first) := by
  obtain ⟨hkind, parts, hparts, hprocessed⟩ := h
  have hstands : ∀ content : Json,
      userRow { setContent content row with kind := prunedKind first index row.kind } =
        decide (index = first) := by
    intro content
    rw [prunedKind, if_pos hkind]
    by_cases hfirst : index = first
    · rw [if_pos hfirst, decide_eq_true hfirst]
      rfl
    · rw [if_neg hfirst, decide_eq_false hfirst]
      rfl
  rw [pruneRow]
  split
  · rename_i hnone
    rw [hparts] at hnone
    exact absurd hnone (by simp)
  · rename_i found hfound
    rw [hparts, Option.some_inj] at hfound
    subst hfound
    split_ifs with hany hbefore
    · exact hstands _
    · exact absurd hprocessed (by simp [hany, hbefore])
    · exact hstands _

/-- **Processing attachments keeps the user's numbering** exactly when every
message it reclassifies counts as the user's if and only if it stands at the
turn's start. -/
theorem pruneAttachments_keepsNumbers_iff (c : Conversation) (first : Nat) (route : Bytes) :
    KeepsNumbers c (c.pruneAttachments first route).1 ↔
      ∀ index row, c.rows[index]? = some row → Reclassified first index row →
        (userRow row = true ↔ index = first) := by
  have hrows : (c.pruneAttachments first route).1.rows =
      c.rows.mapIdx fun index row => (pruneRow first route index row).1 := by
    show (c.rows.mapIdx (pruneRow first route)).map Prod.fst = _
    apply List.ext_getElem?
    intro index
    rw [List.getElem?_map, List.getElem?_mapIdx, List.getElem?_mapIdx, Option.map_map]
    rfl
  constructor
  · intro hkeeps index row hrow hre
    have hstanding := congrArg (fun standings => standings[index]?) hkeeps.standing
    simp only [hrows, List.getElem?_map, List.getElem?_mapIdx, hrow, Option.map_some,
      Option.some_inj] at hstanding
    rw [← hstanding, userRow_pruneRow_of_reclassified hre]
    exact decide_eq_true_iff
  · intro hall
    apply keepsNumbers_of_same
    rw [hrows, List.forall₂_iff_get]
    refine ⟨List.length_mapIdx.symm, fun index hindex hindex' => ?_⟩
    rw [List.get_eq_getElem, List.get_eq_getElem, List.getElem_mapIdx]
    refine ⟨pruneRow_id _ _ _ _, ?_⟩
    by_cases hre : Reclassified first index c.rows[index]
    · have huser := hall index _ (List.getElem?_eq_getElem hindex) hre
      rw [userRow_pruneRow_of_reclassified hre, Bool.eq_iff_iff, decide_eq_true_iff]
      exact huser.symm
    · exact userRow_pruneRow_of_not hre route

/-- A turn whose second message was steered into it with a file. -/
def steeredTurn : Conversation where
  rows :=
    [⟨.ofFields [(lit "role", .str (lit "user")), (lit "content", .str (lit "look"))], .user, 1⟩,
      ⟨.ofFields [(lit "role", .str (lit "assistant")), (lit "content", .str (lit "at what?"))],
        .assistant, 2⟩,
      ⟨.ofFields [(lit "role", .str (lit "user")),
        (lit "content", .arr
          [.ofFields [(lit "type", .str (lit "text")), (lit "text", .str (lit "this"))],
            .ofFields [(lit "type", .str (lit "attachment")), (lit "path", .str (lit "/a.png"))]])],
        .attachment, 3⟩]
  nextDisplayId := 4

/-- The steered message was the second of the user's; processed, it is none
of them. -/
theorem steered_attachment_loses_number :
    steeredTurn.userMessageNumber 3 = 2 ∧
      (steeredTurn.pruneAttachments 0 (lit "vision")).1.userMessageNumber 3 = 0 ∧
      ¬ KeepsNumbers steeredTurn (steeredTurn.pruneAttachments 0 (lit "vision")).1 := by
  have hbefore : steeredTurn.userMessageNumber 3 = 2 := by decide
  have hafter : (steeredTurn.pruneAttachments 0 (lit "vision")).1.userMessageNumber 3 = 0 := by
    decide
  refine ⟨hbefore, hafter, fun hkeeps => ?_⟩
  have hsame := hkeeps.number 3
  rw [hbefore, hafter] at hsame
  exact absurd hsame (by decide)

end Conversation

end UAgent
