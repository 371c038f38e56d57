/-
UAgent/Agent/DuplicateResults.lean

Duplicate tool results (`Agent::AppendToolResult`, src/agent/tool_loop.cc).  A
result that stands unchanged in the recent conversation is not written again:
a short text refers to the one that is there.  `HasRecentToolResult` looks for
it as far back as `PruneOldToolResults` protects at that moment.  The user's
next message moves the protection on, the result may be replaced, and the text
that refers to it stays.

A run keeps beside the conversation what it has written as a duplicate
(`Duplicate`).  Main results: `hasRecentToolResult_iff` and
`duplicates_supported_iff`.
-/
import UAgent.Agent.ResultPruning
import UAgent.Base.Run
import UAgent.Core.OutputBuffer

namespace UAgent

open Bytes

def kToolDedupeMinChars : Nat := 256
def kToolTraceProtectChars : Nat := 64 * 1024
def kToolTracePruneMinChars : Nat := 32 * 1024
def kDuplicate : Bytes := lit "[unchanged duplicate; prior read result remains in recent context]"
def kReadRangeField : Bytes := lit "_uagent_read_range"

namespace Conversation

/-! ### The result of a call -/

/-- `MatchingToolCall`. -/
def matchingToolCall (message : Json) (id name arguments : Bytes) : Bool :=
  match findToolCallFunction message id with
  | none => false
  | some function =>
    jsonValueStr function (lit "name") [] = name &&
      jsonValueStr function (lit "arguments") [] = arguments

/-- The search of `HasRecentToolResult` for the call, through the rows before
its result, the last first. -/
def callBefore (id name arguments : Bytes) : List ConversationRow → Bool
  | [] => false
  | row :: rows =>
    if matchingToolCall row.message id name arguments then true
    else if row.kind = .user then false
    else callBefore id name arguments rows

/-- The row holds `text` as the result of a call of that name with these
arguments. -/
def resultAt (rows : List ConversationRow) (name arguments text : Bytes) (index : Nat) : Bool :=
  match rows[index]? with
  | none => false
  | some row =>
    let id := jsonValueStr row.message (lit "tool_call_id") []
    row.kind = .toolResult && (jsonStringRef row.message (lit "content")).getD [] = text &&
      id ≠ [] && callBefore id name arguments (rows.take index).reverse

section

variable (rows : List ConversationRow) (name arguments result : Bytes)

/-- The rows before an index, the last first; `turns` of the user's messages
are passed. -/
def recentResultFrom (turns : Nat) : Nat → Bool
  | 0 => false
  | index + 1 =>
    match rows[index]? with
    | none => false
    | some row =>
      if row.kind = .user then
        if kProtectedUserTurns ≤ turns + 1 then false else recentResultFrom (turns + 1) index
      else if resultAt rows name arguments result index then true
      else recentResultFrom turns index

end

/-- `HasRecentToolResult`. -/
def hasRecentToolResult (c : Conversation) (name arguments result : Bytes) : Bool :=
  recentResultFrom c.rows name arguments result 0 c.rows.length

section

variable {rows : List ConversationRow} {name arguments text : Bytes} {index : Nat}

theorem lt_of_resultAt (h : resultAt rows name arguments text index = true) :
    index < rows.length := by
  by_contra hge
  rw [resultAt, List.getElem?_eq_none (not_lt.mp hge)] at h
  exact Bool.noConfusion h

theorem resultAt_iff {row : ConversationRow} (hrow : rows[index]? = some row) :
    resultAt rows name arguments text index = true ↔
      row.kind = .toolResult ∧ (jsonStringRef row.message (lit "content")).getD [] = text ∧
        jsonValueStr row.message (lit "tool_call_id") [] ≠ [] ∧
          callBefore (jsonValueStr row.message (lit "tool_call_id") []) name arguments
            (rows.take index).reverse = true := by
  simp only [resultAt, hrow, Bool.and_eq_true, decide_eq_true_iff, and_assoc]

theorem kind_of_resultAt (h : resultAt rows name arguments text index = true) :
    ∃ row, rows[index]? = some row ∧ row.kind = .toolResult ∧
      (jsonStringRef row.message (lit "content")).getD [] = text := by
  have hlt := lt_of_resultAt h
  have hrow : rows[index]? = some rows[index] := List.getElem?_eq_getElem hlt
  obtain ⟨hkind, htext, -⟩ := (resultAt_iff hrow).mp h
  exact ⟨rows[index], hrow, hkind, htext⟩

/-- A message of the user is no result. -/
theorem not_resultAt_of_user {row : ConversationRow} (hrow : rows[index]? = some row)
    (huser : row.kind = .user) : resultAt rows name arguments text index ≠ true := by
  intro h
  obtain ⟨row', hrow', hkind, -⟩ := kind_of_resultAt h
  rw [hrow, Option.some_inj] at hrow'
  rw [← hrow', huser] at hkind
  exact absurd hkind (by decide)

/-- A row that comes in at the end says nothing of the results before it. -/
theorem resultAt_append (h : index < rows.length) (row : ConversationRow) :
    resultAt (rows ++ [row]) name arguments text index =
      resultAt rows name arguments text index := by
  rw [resultAt, resultAt, List.getElem?_append_left h, List.take_append_of_le_length h.le]

theorem userTurnsFrom_antitone {i j : Nat} (h : i ≤ j) :
    userTurnsFrom rows j ≤ userTurnsFrom rows i := by
  obtain ⟨d, rfl⟩ := Nat.exists_eq_add_of_le h
  rw [userTurnsFrom, userTurnsFrom, ← List.drop_drop]
  exact (List.drop_sublist d (rows.drop i)).countP_le

/-- The last row adds nothing when it does not do. -/
theorem exists_before_iff {p : Nat → Prop} (h : ¬ p index) :
    (∃ j < index, p j) ↔ ∃ j < index + 1, p j := by
  constructor
  · rintro ⟨j, hj, hp⟩
    exact ⟨j, Nat.lt_succ_of_lt hj, hp⟩
  · rintro ⟨j, hj, hp⟩
    rcases Nat.lt_succ_iff_lt_or_eq.mp hj with hlt | rfl
    · exact ⟨j, hlt, hp⟩
    · exact absurd hp h

theorem userTurnsFrom_append_le (rows more : List ConversationRow) (n : Nat) :
    userTurnsFrom (rows ++ more) n ≤ userTurnsFrom rows n + more.countP (·.kind = .user) := by
  rw [userTurnsFrom, userTurnsFrom, List.drop_append, List.countP_append]
  exact Nat.add_le_add_left (List.drop_sublist _ more).countP_le _

/-- What the search finds from a row on. -/
theorem recentResultFrom_iff {start : Nat} (hstart : start ≤ rows.length)
    (hturns : userTurnsFrom rows start < kProtectedUserTurns) :
    recentResultFrom rows name arguments text (userTurnsFrom rows start) start = true ↔
      ∃ j < start, resultAt rows name arguments text j = true ∧
        userTurnsFrom rows (j + 1) < kProtectedUserTurns := by
  induction start with
  | zero => simp [recentResultFrom]
  | succ index ih =>
    obtain ⟨row, hrow⟩ : ∃ row, rows[index]? = some row := ⟨_, List.getElem?_eq_getElem hstart⟩
    have hcount := userTurnsFrom_eq hrow
    simp only [recentResultFrom, hrow]
    split_ifs with huser hout hfound
    · -- the window ends here
      rw [if_pos huser] at hcount
      simp only [false_iff, not_exists, not_and, not_lt]
      intro j hj hresult
      rcases Nat.lt_succ_iff_lt_or_eq.mp hj with hlt | rfl
      · exact (hout.trans hcount.ge).trans (userTurnsFrom_antitone hlt)
      · exact absurd hresult (not_resultAt_of_user hrow huser)
    · rw [if_pos huser] at hcount
      rw [← hcount, ih (Nat.le_of_succ_le hstart) (by omega)]
      exact exists_before_iff (fun h => absurd h.1 (not_resultAt_of_user hrow huser))
    · exact iff_of_true rfl ⟨index, Nat.lt_succ_self index, hfound, hturns⟩
    · rw [if_neg huser, Nat.add_zero] at hcount
      rw [← hcount, ih (Nat.le_of_succ_le hstart) (hcount ▸ hturns)]
      exact exists_before_iff (fun h => absurd h.1 hfound)

end

/-- **The search** looks back exactly as far as results are protected at that
moment. -/
theorem hasRecentToolResult_iff (c : Conversation) (name arguments result : Bytes) :
    c.hasRecentToolResult name arguments result = true ↔
      ∃ j, resultAt c.rows name arguments result j = true ∧
        userTurnsFrom c.rows (j + 1) < kProtectedUserTurns := by
  have hend : userTurnsFrom c.rows c.rows.length = 0 := by
    rw [userTurnsFrom, List.drop_length]
    rfl
  have hfrom := @recentResultFrom_iff c.rows name arguments result _ le_rfl (by rw [hend]; decide)
  rw [hend] at hfrom
  rw [hasRecentToolResult, hfrom]
  constructor
  · rintro ⟨j, -, h⟩
    exact ⟨j, h⟩
  · rintro ⟨j, hresult, h⟩
    exact ⟨j, lt_of_resultAt hresult, hresult, h⟩

/-! ### What pruning leaves -/

/-- Pruning leaves the result `text` of a row as it is: nothing is reclaimed,
or the result is recent, short, replaced before, of a tool whose output is
retained, within the protected characters, or no longer than what would
replace it. -/
def Spared (rows : List ConversationRow) (protect minimum : Nat) (retained : List Bytes)
    (text : Bytes) (index : Nat) : Prop :=
  (minimum = 0 ∨ min (savingsFrom rows protect retained 0) sizeMax < minimum) ∨
    (userTurnsFrom rows (index + 1) < kProtectedUserTurns ∨
      text.length < kMinimumPrunableResultChars ∨ kCompactedToolOutput <+: text ∨
        toolResultName rows index ∈ retained) ∨
    min (eligibleFrom rows retained index) sizeMax ≤ protect ∨
    text.length ≤ (compactedResult text).length

section

variable {rows : List ConversationRow} {protect minimum : Nat} {retained : List Bytes}
  {name arguments text : Bytes} {index : Nat}

/-- A result that may be replaced is spared just when it has no replacement. -/
theorem spared_iff
    (hon : ¬(minimum = 0 ∨ min (savingsFrom rows protect retained 0) sizeMax < minimum))
    (h : resultAt rows name arguments text index = true) :
    Spared rows protect minimum retained text index ↔
      replacement rows protect retained index = none := by
  obtain ⟨row, hrow, hkind, htext⟩ := kind_of_resultAt h
  rw [Spared, or_iff_right hon]
  cases hcontent : jsonStringRef row.message (lit "content") with
  | none =>
    rw [hcontent] at htext
    have hnone : eligibleResult rows retained index = none := by
      rw [eligibleResult, hrow]
      simp [hcontent]
    refine iff_of_true (.inl (.inr (.inl ?_))) ?_
    · rw [← htext]
      decide
    · rw [replacement, hnone]
  | some content =>
    rw [hcontent, Option.getD_some] at htext
    subst htext
    by_cases hout : userTurnsFrom rows (index + 1) < kProtectedUserTurns ∨
        content.length < kMinimumPrunableResultChars ∨ kCompactedToolOutput <+: content ∨
          toolResultName rows index ∈ retained
    · have hnone : eligibleResult rows retained index = none := by
        cases helig : eligibleResult rows retained index with
        | none => rfl
        | some other =>
          obtain ⟨row', hrow', -, hturns, hother, hlong, hfresh, hname⟩ := eligibleResult_spec helig
          rw [hrow, Option.some_inj] at hrow'
          rw [← hrow', hcontent, Option.some_inj] at hother
          rw [← hother] at hlong hfresh
          rcases hout with hout | hout | hout | hout
          · exact absurd hturns (not_le.mpr hout)
          · exact absurd hlong (not_le.mpr hout)
          · exact absurd hout hfresh
          · exact absurd hout hname
      rw [replacement, hnone]
      exact iff_of_true (.inl hout) rfl
    · have hsome : eligibleResult rows retained index = some content := by
        simp only [not_or] at hout
        rw [eligibleResult, hrow]
        simp only [hkind, hcontent, ne_eq, not_true_eq_false, or_false, if_neg hout.1,
          Option.filter_eq_some_iff, decide_eq_true_iff, not_or, hout.2.1,
          not_false_eq_true, List.isPrefixOf_iff_prefix, hout.2.2.1, hout.2.2.2, and_self]
      rw [or_iff_right hout, replacement, hsome]
      simp only [ite_eq_left_iff, reduceCtorEq, imp_false, not_not]

/-- The calls of a message and its kind. -/
def callsAndKind (row : ConversationRow) : (Bytes → Option Json) × MessageKind :=
  (findToolCallFunction row.message, row.kind)

theorem callBefore_congr {rows' : List ConversationRow} (id : Bytes)
    (h : rows'.map callsAndKind = rows.map callsAndKind) :
    callBefore id name arguments rows' = callBefore id name arguments rows := by
  induction rows generalizing rows' with
  | nil =>
    rw [List.map_eq_nil_iff.mp h]
  | cons row rows ih =>
    obtain ⟨row', rows', rfl, hrow, hrows⟩ := List.map_eq_cons_iff.mp h
    obtain ⟨hcalls, hkind⟩ := Prod.mk.inj hrow
    have hmatch : matchingToolCall row'.message id name arguments =
        matchingToolCall row.message id name arguments := by
      rw [matchingToolCall, matchingToolCall, hcalls]
    rw [callBefore, callBefore, hmatch, hkind, ih hrows]

/-- Writing a content leaves the calls of a message. -/
theorem callsAndKind_setContent (words : Json) (row : ConversationRow) :
    callsAndKind (setContent words row) = callsAndKind row := by
  refine Prod.ext (funext fun id => ?_) rfl
  show findToolCallFunction (row.message.set (lit "content") words) id =
    findToolCallFunction row.message id
  have hrole := Json.get?_set_ne row.message words (show lit "role" ≠ lit "content" by decide)
  have hcalls :=
    Json.get?_set_ne row.message words (show lit "tool_calls" ≠ lit "content" by decide)
  rw [findToolCallFunction, findToolCallFunction, jsonValueStr, jsonValueStr, jsonArray, jsonArray,
    hrole, hcalls]

theorem map_callsAndKind_replaced :
    (rows.mapIdx (replacedRow rows protect retained)).map callsAndKind = rows.map callsAndKind := by
  refine map_mapIdx_same (fun index row => ?_) rows
  rcases replacedRow_cases rows protect retained index row with hsame | ⟨words, -, hset⟩
  · rw [hsame]
  · rw [hset, callsAndKind_setContent]

/-- What a row says as a result after the replacements. -/
theorem resultAt_replaced_iff :
    resultAt (rows.mapIdx (replacedRow rows protect retained)) name arguments text index = true ↔
      replacement rows protect retained index = none ∧
          resultAt rows name arguments text index = true ∨
        replacement rows protect retained index = some text ∧
          ∃ content, resultAt rows name arguments content index = true := by
  have hget : (rows.mapIdx (replacedRow rows protect retained))[index]? =
      rows[index]?.map (replacedRow rows protect retained index) := List.getElem?_mapIdx
  have hcalls (id : Bytes) :
      callBefore id name arguments
          ((rows.mapIdx (replacedRow rows protect retained)).take index).reverse =
        callBefore id name arguments (rows.take index).reverse := by
    apply callBefore_congr
    rw [List.map_reverse, List.map_reverse, List.map_take, List.map_take, map_callsAndKind_replaced]
  cases hrow : rows[index]? with
  | none =>
    have hnone (content : Bytes) : resultAt rows name arguments content index ≠ true := by
      rw [resultAt, hrow]
      exact Bool.noConfusion
    rw [resultAt, hget, hrow]
    simp [hnone]
  | some row =>
    rw [hrow, Option.map_some] at hget
    rw [resultAt_iff hget, hcalls]
    cases hword : replacement rows protect retained index with
    | none =>
      have hsame : replacedRow rows protect retained index row = row := by rw [replacedRow, hword]
      rw [hsame, resultAt_iff hrow]
      simp
    | some words =>
      have hset : replacedRow rows protect retained index row = setContent (.str words) row := by
        rw [replacedRow, hword]
      obtain ⟨content, helig, -⟩ := replacement_spec hword
      obtain ⟨row', hrow', -, -, hcontent, -⟩ := eligibleResult_spec helig
      rw [hrow, Option.some_inj] at hrow'
      subst hrow'
      have hid : jsonValueStr (setContent (.str words) row).message (lit "tool_call_id") [] =
          jsonValueStr row.message (lit "tool_call_id") [] := by
        show jsonValueStr (row.message.set (lit "content") (.str words)) (lit "tool_call_id") [] = _
        rw [jsonValueStr, jsonValueStr, Json.get?_set_ne _ _ (by decide)]
      rw [hset, hid, jsonStringRef_setContent hcontent, Option.getD_some]
      simp only [resultAt_iff hrow, hcontent, Option.getD_some, reduceCtorEq, false_and, false_or,
        Option.some_inj]
      constructor
      · rintro ⟨hkind, hwords, hrest⟩
        exact ⟨hwords, content, hkind, rfl, hrest⟩
      · rintro ⟨hwords, -, hkind, -, hrest⟩
        exact ⟨hkind, hwords, hrest⟩

end

section Push

theorem rows_push (c : Conversation) (message : Json) (kind : MessageKind) (stamp : Bytes) :
    (c.push message kind stamp).rows =
      c.rows ++ [⟨normalizeRole message kind, kind, c.nextDisplayId⟩] := by
  rw [push, pushWithDisplayId]
  split_ifs
  · rw [rows_recordDisplay]
    rfl
  · rfl

end Push

end Conversation

open Conversation

/-! ### Writing a result -/

/-- The fields of `ToolCall` that are written with its result. -/
structure AnsweredCall where
  id : Bytes
  name : Bytes
  args : Bytes
  responseId : Bytes := []
  occurrenceId : Bytes := []
  detailId : Bytes := []

namespace AnsweredCall

/-- The members by which a call's display facts name it. -/
def identity (call : AnsweredCall) : List (Bytes × Json) :=
  [(lit "call_id", .str call.id), (lit "response_id", .str call.responseId),
    (lit "occurrence_id", .str call.occurrenceId), (lit "detail_id", .str call.detailId)]

/-- The message of a result. -/
def message (call : AnsweredCall) (content : Bytes) : Json :=
  .ofFields [(lit "role", .str (lit "tool")), (lit "tool_call_id", .str call.id),
    (lit "content", .str content)]

end AnsweredCall

/-- `ReadRange`. -/
structure ReadRange where
  path : Bytes
  first : Int64
  last : Int64

/-- What `AppendToolResult` is given.  `dedupeOutput` is that of the call's
tool, false if there is no such tool; `facts` is the row as a person reads it,
but for the call's own members; `range` is what a successful read covered when
the model is given all of it; `stamp` is `UtcStamp()`. -/
structure ResultEntry where
  call : AnsweredCall
  dedupeOutput : Bool
  result : Bytes
  facts : Json
  range : Option ReadRange := none
  duration : Json := .null
  stamp : Bytes := []

/-- `PushToolResultMessage`. -/
def pushToolResultMessage (c : Conversation) (call : AnsweredCall) (message : Json)
    (stamp : Bytes) : Conversation :=
  (c.push message .toolResult stamp).recordDisplay (displayName c.nextDisplayId)
    (.ofFields call.identity)

namespace ResultEntry

/-- The message that holds the whole result. -/
def fullMessage (entry : ResultEntry) : Json :=
  match entry.range with
  | none => entry.call.message entry.result
  | some range =>
    (entry.call.message entry.result).set kReadRangeField
      (.arr [.str range.path, .int range.first, .int range.last])

/-- The result is written as a duplicate. -/
def duplicate (entry : ResultEntry) (c : Conversation) : Bool :=
  entry.dedupeOutput && kToolDedupeMinChars ≤ entry.result.length &&
    c.hasRecentToolResult entry.call.name entry.call.args entry.result

end ResultEntry

/-- `AppendToolResult`. -/
def appendToolResult [DoubleSum] (c : Conversation) (entry : ResultEntry) : Conversation :=
  let c := c.addStatistics (.ofFields [(lit "tool_ms", entry.duration)])
  let c := c.recordDisplay entry.call.detailId (entry.facts.update (.obj entry.call.identity))
  if entry.duplicate c then
    pushToolResultMessage c entry.call (entry.call.message kDuplicate) entry.stamp
  else pushToolResultMessage c entry.call entry.fullMessage entry.stamp

/-! ### Runs -/

/-- A result that was written as a duplicate: the row of the text, and the
call and the result it stands for. -/
structure Duplicate where
  row : Nat
  name : Bytes
  args : Bytes
  result : Bytes

/-- A conversation with what was written as a duplicate. -/
structure ToolTrace where
  conversation : Conversation
  duplicates : List Duplicate := []

/-- What happens to the messages: one is pushed, a turn's or any other, a tool
result is appended, old results are pruned. -/
inductive TraceStep
  | push (message : Json) (kind : MessageKind) (stamp : Bytes)
  | result (entry : ResultEntry)
  | prune (protect minimum : Nat) (retained : List Bytes)

namespace ToolTrace

/-- The text that refers to an earlier result, if that is what is written. -/
def written (c : Conversation) (entry : ResultEntry) : List Duplicate :=
  if entry.duplicate c then [⟨c.rows.length, entry.call.name, entry.call.args, entry.result⟩]
  else []

def step [DoubleSum] (s : ToolTrace) : TraceStep → ToolTrace
  | .push message kind stamp => { s with conversation := s.conversation.push message kind stamp }
  | .result entry =>
    { conversation := appendToolResult s.conversation entry
      duplicates := s.duplicates ++ written s.conversation entry }
  | .prune protect minimum retained =>
    { s with conversation := (s.conversation.pruneOldToolResults protect minimum retained).1 }

/-- Each duplicate has the full result of its call before it. -/
def Supported (s : ToolTrace) : Prop :=
  ∀ d ∈ s.duplicates, ∃ j < d.row,
    resultAt s.conversation.rows d.name d.args d.result j = true

/-- A pruning leaves each duplicate one of the full results before it. -/
def Keeps (s : ToolTrace) : TraceStep → Prop
  | .prune protect minimum retained =>
    ∀ d ∈ s.duplicates, ∃ j < d.row,
      resultAt s.conversation.rows d.name d.args d.result j = true ∧
        Spared s.conversation.rows protect minimum retained d.result j
  | _ => True

/-! ### One step -/

section

variable {s : ToolTrace}

theorem rows_pushToolResultMessage (c : Conversation) (call : AnsweredCall) (message : Json)
    (stamp : Bytes) :
    (pushToolResultMessage c call message stamp).rows =
      c.rows ++ [⟨message, .toolResult, c.nextDisplayId⟩] := by
  rw [pushToolResultMessage, rows_recordDisplay, rows_push]
  rfl

/-- A result comes in at the end, whole or as a duplicate. -/
theorem rows_appendToolResult [DoubleSum] (c : Conversation) (entry : ResultEntry) :
    ∃ id, (appendToolResult c entry).rows =
      c.rows ++ [⟨if entry.duplicate c then entry.call.message kDuplicate else entry.fullMessage,
        .toolResult, id⟩] := by
  rw [appendToolResult]
  have hsame : entry.duplicate
      ((c.addStatistics (.ofFields [(lit "tool_ms", entry.duration)])).recordDisplay
        entry.call.detailId (entry.facts.update (.obj entry.call.identity))) =
      entry.duplicate c := by
    rw [ResultEntry.duplicate, ResultEntry.duplicate, hasRecentToolResult, hasRecentToolResult,
      rows_recordDisplay]
    rfl
  rw [hsame]
  split_ifs <;> rw [rows_pushToolResultMessage, rows_recordDisplay] <;> exact ⟨_, rfl⟩

/-- What comes in at the end leaves the duplicates their results. -/
theorem Supported.append (h : s.Supported) (row : ConversationRow) :
    ∀ d ∈ s.duplicates, ∃ j < d.row,
      resultAt (s.conversation.rows ++ [row]) d.name d.args d.result j = true := by
  intro d hd
  obtain ⟨j, hj, hresult⟩ := h d hd
  exact ⟨j, hj, (resultAt_append (lt_of_resultAt hresult) row).trans hresult⟩

/-- A duplicate that is written has its result in the window. -/
theorem supported_written {c : Conversation} {entry : ResultEntry} {d : Duplicate}
    (hd : d ∈ written c entry) :
    ∃ j < d.row, resultAt c.rows d.name d.args d.result j = true := by
  rw [written] at hd
  split_ifs at hd with hduplicate
  · obtain rfl := List.mem_singleton.mp hd
    simp only [ResultEntry.duplicate, Bool.and_eq_true] at hduplicate
    obtain ⟨j, hresult, -⟩ := (hasRecentToolResult_iff c _ _ _).mp hduplicate.2
    exact ⟨j, lt_of_resultAt hresult, hresult⟩
  · exact absurd hd List.not_mem_nil

/-- **A pruning**: the duplicates keep their results exactly when each keeps
one that is spared. -/
theorem supported_prune_iff [DoubleSum] (h : s.Supported) (protect minimum : Nat)
    (retained : List Bytes) :
    (s.step (.prune protect minimum retained)).Supported ↔
      s.Keeps (.prune protect minimum retained) := by
  by_cases hoff : minimum = 0 ∨
      min (savingsFrom s.conversation.rows protect retained 0) sizeMax < minimum
  · have hsame : (s.step (.prune protect minimum retained)).conversation = s.conversation := by
      show (s.conversation.pruneOldToolResults protect minimum retained).1 = s.conversation
      rw [pruneOldToolResults_eq, if_pos hoff]
    refine iff_of_true ?_ fun d hd => ?_
    · rw [Supported, hsame]
      exact h
    · obtain ⟨j, hj, hresult⟩ := h d hd
      exact ⟨j, hj, hresult, .inl hoff⟩
  · have hrows : (s.step (.prune protect minimum retained)).conversation.rows =
        s.conversation.rows.mapIdx (replacedRow s.conversation.rows protect retained) := by
      show (s.conversation.pruneOldToolResults protect minimum retained).1.rows = _
      rw [pruneOldToolResults_eq, if_neg hoff]
    rw [Supported, hrows]
    refine forall₂_congr fun d hd => ?_
    constructor
    · rintro ⟨j, hj, hresult⟩
      rcases resultAt_replaced_iff.mp hresult with ⟨hnone, hbefore⟩ | ⟨hsome, -⟩
      · exact ⟨j, hj, hbefore, (spared_iff hoff hbefore).mpr hnone⟩
      · -- a result that reads as a replacement is not replaced itself
        obtain ⟨content, -, hwords, -⟩ := replacement_spec hsome
        obtain ⟨j', hj', hbefore⟩ := h d hd
        refine ⟨j', hj', hbefore, .inr (.inl (.inr (.inr (.inl ?_))))⟩
        rw [hwords]
        exact marked_compactedResult content
    · rintro ⟨j, hj, hresult, hspared⟩
      have hnone := (spared_iff hoff hresult).mp hspared
      exact ⟨j, hj, resultAt_replaced_iff.mpr (.inl ⟨hnone, hresult⟩)⟩

/-- **One step.** -/
theorem supported_step_iff [DoubleSum] (h : s.Supported) (e : TraceStep) :
    (s.step e).Supported ↔ s.Keeps e := by
  cases e with
  | push message kind stamp =>
    refine iff_of_true ?_ trivial
    rw [Supported, step, rows_push]
    exact h.append _
  | result entry =>
    refine iff_of_true ?_ trivial
    obtain ⟨id, hrows⟩ := rows_appendToolResult s.conversation entry
    rw [Supported, step, hrows]
    intro d hd
    rcases List.mem_append.mp hd with hold | hnew
    · exact h.append _ d hold
    · obtain ⟨j, hj, hresult⟩ := supported_written hnew
      exact ⟨j, hj, (resultAt_append (lt_of_resultAt hresult) _).trans hresult⟩
  | prune protect minimum retained => exact supported_prune_iff h protect minimum retained

end

/-! ### Whole runs -/

/-- What was written as a duplicate is there, and says so. -/
def Stands (s : ToolTrace) : Prop :=
  ∀ d ∈ s.duplicates, ∃ row, s.conversation.rows[d.row]? = some row ∧ row.kind = .toolResult ∧
    jsonStringRef row.message (lit "content") = some kDuplicate

theorem Stands.append {s : ToolTrace} (h : s.Stands) (row : ConversationRow) :
    ∀ d ∈ s.duplicates, ∃ row', (s.conversation.rows ++ [row])[d.row]? = some row' ∧
      row'.kind = .toolResult ∧ jsonStringRef row'.message (lit "content") = some kDuplicate := by
  intro d hd
  obtain ⟨row', hrow', hsays⟩ := h d hd
  obtain ⟨hlt, -⟩ := List.getElem?_eq_some_iff.mp hrow'
  exact ⟨row', by rw [List.getElem?_append_left hlt, hrow'], hsays⟩

/-- A pruning never replaces a duplicate's text: it is short. -/
theorem Stands.step [DoubleSum] {s : ToolTrace} (h : s.Stands) (e : TraceStep) :
    (s.step e).Stands := by
  cases e with
  | push message kind stamp =>
    rw [Stands, ToolTrace.step, rows_push]
    exact h.append _
  | result entry =>
    obtain ⟨id, hrows⟩ := rows_appendToolResult s.conversation entry
    rw [Stands, ToolTrace.step, hrows]
    intro d hd
    rcases List.mem_append.mp hd with hold | hnew
    · exact h.append _ d hold
    · rw [written] at hnew
      split_ifs at hnew with hduplicate
      · obtain rfl := List.mem_singleton.mp hnew
        refine ⟨_, List.getElem?_concat_length, rfl, ?_⟩
        rw [if_pos hduplicate]
        rfl
      · exact absurd hnew List.not_mem_nil
  | prune protect minimum retained =>
    intro d hd
    obtain ⟨row, hrow, hkind, hsays⟩ := h d hd
    refine ⟨row, ?_, hkind, hsays⟩
    show (s.conversation.pruneOldToolResults protect minimum retained).1.rows[d.row]? = some row
    rw [pruneOldToolResults_eq]
    split_ifs
    · exact hrow
    · show (s.conversation.rows.mapIdx _)[d.row]? = some row
      rw [List.getElem?_mapIdx, hrow, Option.map_some]
      rcases replacedRow_cases s.conversation.rows protect retained d.row row with
        hsame | ⟨words, hword, -⟩
      · rw [hsame]
      · obtain ⟨content, helig, -⟩ := replacement_spec hword
        obtain ⟨row', hrow', -, -, hcontent, hlong, -⟩ := eligibleResult_spec helig
        rw [hrow, Option.some_inj] at hrow'
        rw [← hrow', hsays, Option.some_inj] at hcontent
        rw [← hcontent] at hlong
        exact absurd hlong (by decide)

theorem duplicates_stand [DoubleSum] {c : Conversation} {s : ToolTrace}
    (h : Run ToolTrace.step (fun _ _ => True) ⟨c, []⟩ s) : s.Stands :=
  h.invariant (fun _ hd => absurd hd List.not_mem_nil) fun _ e hs _ => hs.step e

/-- **Duplicates and pruning.**  In every state of a run each duplicate has
the full result of its call before it exactly when every pruning of the run
leaves each duplicate one of them. -/
theorem duplicates_supported_iff [DoubleSum] (c : Conversation) (steps : List TraceStep) :
    (∀ taken, taken <+: steps → (taken.foldl step ⟨c, []⟩).Supported) ↔
      Run.AllOk step Keeps ⟨c, []⟩ steps :=
  Run.forall_isPrefix_iff_allOk (fun _ e h => supported_step_iff h e)
    fun _ hd => absurd hd List.not_mem_nil

/-! ### A duplicate that is left alone -/

/-- A call of `grep`, as the model sent it. -/
def grepCall (id : Bytes) : AnsweredCall where
  id := id
  name := lit "grep"
  args := lit "{}"

/-- The message that calls `grep`. -/
def grepMessage (id : Bytes) : Json :=
  .ofFields [(lit "role", .str (lit "assistant")), (lit "content", .str []),
    (lit "tool_calls", .arr [.ofFields [(lit "id", .str id), (lit "type", .str (lit "function")),
      (lit "function",
        .ofFields [(lit "name", .str (lit "grep")), (lit "arguments", .str (lit "{}"))])]])]

def userMessage : Json :=
  .ofFields [(lit "role", .str (lit "user")), (lit "content", .str (lit "go on"))]

/-- A turn of the user with one call of `grep`, and the pruning at its end. -/
def grepTurn (result id : Bytes) : List TraceStep :=
  [.push userMessage .user [], .push (grepMessage id) .assistant [],
    .result { call := grepCall id, dedupeOutput := true, result := result, facts := .obj [] },
    .prune kToolTraceProtectChars kToolTracePruneMinChars []]

/-- Two such turns, and one without a call. -/
def grepTurns (result : Bytes) : List TraceStep :=
  grepTurn result (lit "call-1") ++ grepTurn result (lit "call-2") ++
    [.push userMessage .user [], .prune kToolTraceProtectChars kToolTracePruneMinChars []]

/-- The messages of such a turn. -/
def grepRows (i j k : UInt64) (id content : Bytes) : List ConversationRow :=
  [⟨normalizeRole userMessage .user, .user, i⟩,
    ⟨normalizeRole (grepMessage id) .assistant, .assistant, j⟩,
    ⟨(grepCall id).message content, .toolResult, k⟩]

/-- What replaces a result is short. -/
theorem length_compactedResult_le (content : Bytes) :
    (compactedResult content).length ≤ (Json.decimal content.length).length + 300 := by
  have hpreview : (utf8Trunc (firstLine content) kStatusLabelBytes).length ≤ 163 := by
    rw [utf8Trunc]
    split_ifs with hshort
    · exact hshort.trans (by decide)
    · have hcut := length_utf8Prefix_le (firstLine content) kStatusLabelBytes
      have hdots : (lit "…").length = 3 := by decide
      rw [List.length_append, hdots]
      exact Nat.add_le_add_right hcut 3
  have hmark : (kCompactedToolOutput ++ lit " ").length = 28 := by decide
  have hwords : (lit " chars; full result retained in session trace").length = 45 := by decide
  have hclose : (lit "]").length = 1 := by decide
  have hopen : (lit "; preview: ").length = 11 := by decide
  rw [compactedResult]
  simp only [List.length_append] at hmark ⊢
  split_ifs
  · omega
  · simp only [List.length_append]
    omega

section

variable {rows : List ConversationRow} {protect minimum : Nat} {retained : List Bytes}

theorem replacement_of_recent {index : Nat}
    (h : userTurnsFrom rows (index + 1) < kProtectedUserTurns) :
    replacement rows protect retained index = none := by
  cases hword : replacement rows protect retained index with
  | none => rfl
  | some words =>
    obtain ⟨content, helig, -⟩ := replacement_spec hword
    obtain ⟨row, -, -, hturns, -⟩ := eligibleResult_spec helig
    exact absurd hturns (not_le.mpr h)

/-- Where every result is recent nothing is pruned. -/
theorem rows_prune_of_recent {c : Conversation}
    (h : userTurnsFrom c.rows 1 < kProtectedUserTurns) :
    (c.pruneOldToolResults protect minimum retained).1.rows = c.rows := by
  rw [pruneOldToolResults_eq]
  split_ifs
  · rfl
  · apply List.ext_getElem?
    intro index
    have hnone : replacement c.rows protect retained index = none :=
      replacement_of_recent ((userTurnsFrom_antitone (Nat.le_add_left 1 index)).trans_lt h)
    have hid : replacedRow c.rows protect retained index = id := by
      funext row
      rw [replacedRow, hnone]
      rfl
    show (c.rows.mapIdx _)[index]? = c.rows[index]?
    rw [List.getElem?_mapIdx, hid, Option.map_id, id_eq]

end

/-- A result that a later pruning replaces. -/
structure Unpruned (result : Bytes) : Prop where
  length : result.length = 100000
  fresh : kCompactedToolOutput.isPrefixOf result = false

section

variable {result : Bytes}

/-- A turn that calls `grep` where `found` says whether its result is there. -/
theorem foldl_grepTurn [DoubleSum] {s : ToolTrace} {id : Bytes} {found : Bool}
    (hlong : result.length = 100000) (hfirst : userTurnsFrom s.conversation.rows 1 = 0)
    (hfound : ∀ (c : Conversation) (i j k : UInt64),
      c.rows = s.conversation.rows ++ (grepRows i j k id []).take 2 →
        c.hasRecentToolResult (lit "grep") (lit "{}") result = found) :
    ∃ i j k, ((grepTurn result id).foldl step s).conversation.rows = s.conversation.rows ++
        grepRows i j k id (if found then kDuplicate else result) ∧
      ((grepTurn result id).foldl step s).duplicates = s.duplicates ++
        if found then [⟨s.conversation.rows.length + 2, lit "grep", lit "{}", result⟩] else [] := by
  obtain ⟨conversation, duplicates⟩ := s
  dsimp only at hfirst hfound
  let entry : ResultEntry :=
    { call := grepCall id, dedupeOutput := true, result := result, facts := .obj [] }
  generalize hc : (conversation.push userMessage .user []).push (grepMessage id) .assistant [] = c
  have hrows : c.rows = conversation.rows ++ (grepRows conversation.nextDisplayId
      (conversation.push userMessage .user []).nextDisplayId 0 id []).take 2 := by
    rw [← hc, rows_push, rows_push, List.append_assoc]
    rfl
  have hduplicate : entry.duplicate c = found := by
    have hmin : decide (kToolDedupeMinChars ≤ result.length) = true := by
      rw [hlong]
      decide
    show (true && decide (kToolDedupeMinChars ≤ result.length) &&
      c.hasRecentToolResult (lit "grep") (lit "{}") result) = found
    rw [hmin, hfound c _ _ _ hrows]
    rfl
  obtain ⟨k, happended⟩ := rows_appendToolResult c entry
  rw [hrows, List.append_assoc, hduplicate] at happended
  have hturn : (grepTurn result id).foldl step ⟨conversation, duplicates⟩ =
      ⟨((appendToolResult c entry).pruneOldToolResults kToolTraceProtectChars
        kToolTracePruneMinChars []).1, duplicates ++ written c entry⟩ := by
    rw [← hc]
    rfl
  refine ⟨conversation.nextDisplayId, (conversation.push userMessage .user []).nextDisplayId, k,
    ?_, ?_⟩
  · rw [hturn]
    refine (rows_prune_of_recent ?_).trans ?_
    · rw [happended]
      refine (userTurnsFrom_append_le _ _ 1).trans_lt ?_
      rw [hfirst]
      exact Nat.one_lt_two
    · rw [happended]
      cases found <;> rfl
  · rw [hturn]
    show duplicates ++ written c entry = _
    rw [written, hduplicate, hrows]
    cases found <;> simp [grepRows, entry, grepCall]

variable (i j k i' j' k' l : UInt64)

variable (result) in
/-- The messages before the last pruning. -/
def grepTrace : List ConversationRow :=
  grepRows i j k (lit "call-1") result ++ grepRows i' j' k' (lit "call-2") kDuplicate ++
    [⟨normalizeRole userMessage .user, .user, l⟩]

theorem eligibleResult_grepTrace (h : Unpruned result) :
    eligibleResult (grepTrace result i j k i' j' k' l) [] 2 = some result := by
  have hrow : (grepTrace result i j k i' j' k' l)[2]? =
      some ⟨(grepCall (lit "call-1")).message result, .toolResult, k⟩ := rfl
  have hturns : userTurnsFrom (grepTrace result i j k i' j' k' l) 3 = 2 := rfl
  have hcontent : jsonStringRef ((grepCall (lit "call-1")).message result) (lit "content") =
      some result := rfl
  have hkept : ¬(result.length < kMinimumPrunableResultChars ∨
      kCompactedToolOutput.isPrefixOf result = true ∨
        toolResultName (grepTrace result i j k i' j' k' l) 2 ∈ ([] : List Bytes)) := by
    rw [h.length, h.fresh]
    simp [kMinimumPrunableResultChars]
  rw [eligibleResult, hrow]
  dsimp only
  rw [hturns, if_neg (by decide), hcontent, Option.filter_some, if_pos (decide_eq_true hkept)]

theorem eligibleChars_grepTrace (h : Unpruned result) :
    eligibleChars (grepTrace result i j k i' j' k' l) [] 2 = 100000 := by
  rw [eligibleChars, eligibleResult_grepTrace _ _ _ _ _ _ _ h]
  exact h.length

theorem Unpruned.length_compactedResult_le (h : Unpruned result) :
    (compactedResult result).length ≤ 306 := by
  have hbound := ToolTrace.length_compactedResult_le result
  have hdigits : (Json.decimal 100000).length = 6 := by decide
  rw [h.length, hdigits] at hbound
  exact hbound

theorem replacement_grepTrace (h : Unpruned result) :
    replacement (grepTrace result i j k i' j' k' l) kToolTraceProtectChars [] 2 =
      some (compactedResult result) := by
  have hlen : (grepTrace result i j k i' j' k' l).length = 7 := rfl
  have hpast : kToolTraceProtectChars < eligibleFrom (grepTrace result i j k i' j' k' l) [] 2 := by
    rw [eligibleFrom_eq (by omega), eligibleChars_grepTrace _ _ _ _ _ _ _ h]
    exact Nat.lt_add_left _ (by decide)
  rw [replacement, eligibleResult_grepTrace _ _ _ _ _ _ _ h]
  refine if_neg (not_or.mpr ⟨not_le.mpr (lt_min hpast (by decide)), not_le.mpr ?_⟩)
  rw [h.length]
  exact h.length_compactedResult_le.trans_lt (by decide)

theorem savingsFrom_grepTrace (h : Unpruned result) :
    kToolTracePruneMinChars ≤
      savingsFrom (grepTrace result i j k i' j' k' l) kToolTraceProtectChars [] 0 := by
  have hlen : (grepTrace result i j k i' j' k' l).length = 7 := rfl
  have hsaving : saving (grepTrace result i j k i' j' k' l) kToolTraceProtectChars [] 2 =
      100000 - (compactedResult result).length := by
    rw [saving, replacement_grepTrace _ _ _ _ _ _ _ h, eligibleChars_grepTrace _ _ _ _ _ _ _ h]
  have hshort := h.length_compactedResult_le
  have hmin : kToolTracePruneMinChars = 32768 := by decide
  rw [savingsFrom_eq (by omega), savingsFrom_eq (by omega), savingsFrom_eq (by omega), hsaving,
    hmin]
  omega

/-- Of the first five messages only one is a result. -/
theorem kind_grepTrace {at_ : Nat} {row : ConversationRow} (hlt : at_ < 5)
    (hrow : (grepTrace result i j k i' j' k' l)[at_]? = some row) (hkind : row.kind = .toolResult) :
    at_ = 2 := by
  have hkinds : ((grepTrace result i j k i' j' k' l)[at_]?).map (·.kind) = some .toolResult := by
    rw [hrow, Option.map_some, hkind]
  rcases at_ with - | - | - | - | - | at_
  · exact absurd hkinds (by simp [grepTrace, grepRows])
  · exact absurd hkinds (by simp [grepTrace, grepRows])
  · rfl
  · exact absurd hkinds (by simp [grepTrace, grepRows])
  · exact absurd hkinds (by simp [grepTrace, grepRows])
  · omega

/-- The pruning leaves nothing before the duplicate that says what it stands
for. -/
theorem not_resultAt_grepTrace (h : Unpruned result) {at_ : Nat} (hlt : at_ < 5) :
    resultAt ((grepTrace result i j k i' j' k' l).mapIdx
        (replacedRow (grepTrace result i j k i' j' k' l) kToolTraceProtectChars []))
      (lit "grep") (lit "{}") result at_ ≠ true := by
  intro hresult
  rcases resultAt_replaced_iff.mp hresult with ⟨hnone, hbefore⟩ | ⟨hsome, -⟩
  · obtain ⟨row, hrow, hkind, -⟩ := kind_of_resultAt hbefore
    obtain rfl := kind_grepTrace i j k i' j' k' l hlt hrow hkind
    rw [replacement_grepTrace _ _ _ _ _ _ _ h] at hnone
    exact absurd hnone (by simp)
  · obtain ⟨content, helig, -, hshorter, -⟩ := replacement_spec hsome
    obtain ⟨row, hrow, hkind, -⟩ := eligibleResult_spec helig
    obtain rfl := kind_grepTrace i j k i' j' k' l hlt hrow hkind
    rw [eligibleResult_grepTrace _ _ _ _ _ _ _ h, Option.some_inj] at helig
    rw [helig] at hshorter
    exact absurd hshorter (lt_irrefl _)

/-- After the third turn the pruning replaces what the second turn's duplicate
refers to. -/
theorem not_supported_grepTurns (h : Unpruned result) :
    letI := zeroSum
    ¬ ((grepTurns result).foldl step ⟨{}, []⟩).Supported := by
  let _ := zeroSum
  obtain ⟨i, j, k, hrows₁, -⟩ := @foldl_grepTurn result zeroSum ⟨{}, []⟩ (lit "call-1") false
    h.length rfl fun c i j k hrows => by
      rw [Bool.eq_false_iff, Ne, hasRecentToolResult_iff]
      rintro ⟨at_, hresult, -⟩
      obtain ⟨row, hrow, hkind, -⟩ := kind_of_resultAt hresult
      have hmem := List.mem_of_getElem? hrow
      rw [hrows] at hmem
      rcases List.mem_pair.mp hmem with rfl | rfl <;> exact MessageKind.noConfusion hkind
  generalize hs₁ : (grepTurn result (lit "call-1")).foldl step ⟨{}, []⟩ = s₁ at hrows₁
  obtain ⟨i', j', k', hrows₂, hduplicates⟩ := @foldl_grepTurn result zeroSum s₁ (lit "call-2") true
    h.length (by
      rw [hrows₁]
      rfl)
    fun c i' j' k' hrows => by
      rw [hrows₁] at hrows
      refine (hasRecentToolResult_iff c _ _ _).mpr ⟨2, ?_, ?_⟩
      · rw [hrows]
        have hrow : (([] ++ grepRows i j k (lit "call-1") result) ++
            (grepRows i' j' k' (lit "call-2") []).take 2)[2]? =
              some ⟨(grepCall (lit "call-1")).message result, .toolResult, k⟩ := rfl
        have hid : jsonValueStr ((grepCall (lit "call-1")).message result) (lit "tool_call_id") [] =
            lit "call-1" := rfl
        refine (resultAt_iff hrow).mpr ⟨rfl, rfl, ?_, rfl⟩
        rw [hid]
        decide
      · rw [hrows]
        exact Nat.one_lt_two
  generalize hs₂ : (grepTurn result (lit "call-2")).foldl step s₁ = s₂ at hrows₂ hduplicates
  have hrun : (grepTurns result).foldl step ⟨{}, []⟩ =
      ⟨((s₂.conversation.push userMessage .user []).pruneOldToolResults kToolTraceProtectChars
        kToolTracePruneMinChars []).1, s₂.duplicates⟩ := by
    rw [grepTurns, List.foldl_append, List.foldl_append, hs₁, hs₂]
    rfl
  have htrace : (s₂.conversation.push userMessage .user []).rows =
      grepTrace result i j k i' j' k' s₂.conversation.nextDisplayId := by
    rw [rows_push, hrows₂, hrows₁]
    rfl
  intro hsupported
  rw [hrun] at hsupported
  obtain ⟨at_, hlt, hresult⟩ := hsupported ⟨5, lit "grep", lit "{}", result⟩ (by
    show _ ∈ s₂.duplicates
    rw [hduplicates, hrows₁]
    exact List.mem_append_right _ List.mem_cons_self)
  have hsavings := savingsFrom_grepTrace i j k i' j' k' s₂.conversation.nextDisplayId h
  dsimp only at hresult
  rw [pruneOldToolResults_eq, htrace, if_neg] at hresult
  · exact not_resultAt_grepTrace _ _ _ _ _ _ _ h hlt hresult
  · rintro (hzero | hless)
    · exact absurd hzero (by decide)
    · exact absurd hless (not_lt.mpr (le_min hsavings (by decide)))

end

/-- So it is for a result of 100000 characters. -/
theorem duplicate_left_alone :
    letI := zeroSum
    ¬ ((grepTurns (List.replicate 100000 (ch 'a'))).foldl step ⟨{}, []⟩).Supported :=
  not_supported_grepTurns ⟨List.length_replicate, by
    rw [List.replicate_succ]
    rfl⟩

end ToolTrace

end UAgent
