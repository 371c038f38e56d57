/-
UAgent/Agent/TurnNumbers.lean

The numbers of a session's turns (`Agent::Turn` of src/agent/turn.cc, `Reset`,
`Save` and `Load` of src/agent/agent.cc, `SessionStore::Fork`): what a turn
records carries its number, so that the usage of a child, an undo or a live
row finds its turn again.

Three counters are in play: the number of the last turn, the turns a person
counts (which is what is saved, and what a loaded session goes on numbering
from) and the user messages of the conversation (which a fork cuts at).  The
display facts and the archive of a fork are all those of its source.

Counters are counted, not taken modulo 2^63.  A fork leaves the texts of its
source as they are here; the source rewrites the paths of copied files in them.
-/
import UAgent.Agent.ConversationRestore

namespace UAgent

open Bytes

/-! ### Numbers that are recorded -/

/-- The response id of an attempt: `response_base` and the attempt. -/
def responseId (turn request attempt : Nat) : Bytes :=
  lit "r-" ++ (Json.decimal turn ++
    (lit "-" ++ (Json.decimal request ++ (lit "-" ++ Json.decimal attempt))))

/-- A number in decimal is read. -/
def readDecimal (digits : Bytes) : Nat := digits.foldl (fun n c => 10 * n + (c - 0x30).toNat) 0

/-- The turn of a response id. -/
def responseTurn (id : Bytes) : Option Nat :=
  if (lit "r-").isPrefixOf id then some (readDecimal (untilFirst (ch '-') (id.drop 2))) else none

/-- The turn of a summary. -/
def summaryTurn (summary : Json) : Nat := (jsonValueInt64 summary (lit "turn") 0).toNat

/-- The turns a member of a display fact is numbered with: a summary's, a
response's. -/
def memberTurns (member : Bytes × Json) : List Nat :=
  if member.1 = lit "summary" then [summaryTurn member.2]
  else if member.1 = lit "response_id" then
    match member.2 with
    | .str id => (responseTurn id).toList
    | _ => []
  else []

/-- The turns a display fact is numbered with. -/
def factTurns : Json → List Nat
  | .obj fields => fields.flatMap memberTurns
  | _ => []

namespace Conversation

/-- The turns a conversation is numbered with. -/
def turns (c : Conversation) : List Nat :=
  c.displayFacts.flatMap (fun e => factTurns e.2) ++ c.archive.map summaryTurn

/-- `UserTurns`. -/
def userTurns (c : Conversation) : Nat := c.rows.countP fun row => isUserMessage row.message row.kind

/-- The loop of `UserMessageNumber`, `seen` user messages being passed. -/
def userMessageFrom (id : UInt64) (seen : Nat) : List ConversationRow → Nat
  | [] => 0
  | row :: rows =>
    if !isUserMessage row.message row.kind then userMessageFrom id seen rows
    else if row.id = id then seen + 1
    else userMessageFrom id (seen + 1) rows

/-- `UserMessageNumber`: zero for none. -/
def userMessageNumber (c : Conversation) (id : UInt64) : Nat := userMessageFrom id 0 c.rows

end Conversation

/-! ### The session -/

/-- A session as it is saved: the count of its turns, and what `Restore` is
given of the conversation. -/
structure SavedSession where
  turns : Nat
  conversation : Conversation

/-- The agent, the session's file and the index of its edit journal. -/
structure NumberedSession where
  conversation : Conversation
  turnId : Nat := 0
  totalUserTurns : Nat := 0
  /-- The turns of `EditJournal::turns_`. -/
  edits : List Nat := []
  /-- A turn is running. -/
  running : Bool := false
  file : Option SavedSession := none
  /-- The turns of the index the journal is read from. -/
  index : List Nat := []

inductive NumberEvent
  /-- `Agent::Turn` starts, for a person, mail or a result. -/
  | turn
  /-- A change of the conversation that records no number: the messages of a
  turn and steering are pushed, results are pruned, facts are recorded. -/
  | converse (change : Conversation.ConversationStep)
  /-- The facts of a response, or of a call it made, are recorded. -/
  | respond (key : Bytes) (facts : List (Bytes × Json)) (request attempt : Nat)
  /-- `ArchiveTurnTrace`. -/
  | archive (turnStart : Nat) (cap : Int)
  /-- `Compact` archives the conversation and starts its history anew. -/
  | compact (reason : Bytes) (baselineSize : Nat) (cap : Int) (baseline : List (Json × MessageKind))
  /-- A file is changed in a turn (`EditJournal::Record`). -/
  | edit
  /-- `EditJournal::Save`. -/
  | saveEdits
  /-- A turn's edits are undone. -/
  | revert (turn : Nat)
  /-- The turn ends with its summary. -/
  | complete (root : Bytes) (summary : List (Bytes × Json)) (stamp : Bytes)
  /-- `UpdateTurnSideUsage`, with the values it writes. -/
  | amend (turn : Nat) (usage reported side tools models : Json)
  | reset (baseline : List (Json × MessageKind))
  | save
  /-- The session is opened again, by another process. -/
  | load (system : Json)
  /-- A fork at a turn, or of the whole session for zero, is opened. -/
  | fork (forkTurn : Nat) (source title : Bytes) (usage : Json) (system : Json)
  /-- A fork at a live message is opened. -/
  | forkAt (message : UInt64) (source title : Bytes) (usage : Json) (system : Json)

/-- The fact of a row that was cut off with its process. -/
def cutFact : Json :=
  .ofFields [(lit "state", .str (lit "cancelled")),
    (lit "result", .ofFields [(lit "word", .str (lit "cancelled"))])]

/-- A row that an earlier process left running. -/
def isCut (facts : Json) : Bool :=
  facts.contains (lit "activity_id") && jsonValueStr facts (lit "state") [] = lit "running"

/-- The number of the running turn, as it is recorded. -/
def turnNumber (turn : Nat) : Json := .int (Int64.ofNat turn)

namespace SavedSession

/-- The prefix before a user message, whose turns are those before it; the
whole session for zero. -/
def cutAt (turns : Nat) (c : Conversation) (forkTurn : Nat) : Option SavedSession :=
  if forkTurn = 0 then some ⟨turns, c⟩
  else if (c.truncateBeforeUserTurn forkTurn).2 then
    some ⟨forkTurn - 1, (c.truncateBeforeUserTurn forkTurn).1⟩
  else none

/-- The fact that tells where a fork is from, and its own counters. -/
def withOrigin (record : SavedSession) (source title : Bytes) (usage : Json) : SavedSession :=
  let origin := Json.ofFields [(lit "source", .str source), (lit "title", .str title),
    (lit "turns", turnNumber record.turns), (lit "usage", usage),
    (lit "statistics", record.conversation.statistics)]
  { record with
    conversation := { record.conversation with
      displayFacts := Assoc.insert (lit "fork-origin") origin record.conversation.displayFacts
      statistics := .ofFields [(lit "incoming", .int 0), (lit "complete", .bool true)] } }

/-- The record `Fork` saves; nothing when it fails. -/
def forked [DoubleText] (saved : SavedSession) (forkTurn : Nat) (source title : Bytes)
    (usage : Json) : Option SavedSession :=
  (saved.conversation.reopen.bind fun c => cutAt saved.turns c forkTurn).map fun record =>
    record.withOrigin source title usage

end SavedSession

namespace NumberedSession

variable [DoubleText] [DoubleSum]

/-- `Agent::UserTurns`. -/
def userTurns (s : NumberedSession) : Nat :=
  if 0 < s.totalUserTurns then s.totalUserTurns else s.conversation.userTurns

/-- `Agent::Load` of a record, and `EditJournal::Open`. -/
def loaded (s : NumberedSession) (saved : SavedSession) (system : Json) : NumberedSession :=
  match saved.conversation.reopen with
  | none => s
  | some c =>
    let cut := (c.displayFacts.filter fun e => isCut e.2).map Prod.fst
    { s with
      conversation := (cut.foldl (fun c key => c.recordDisplay key cutFact) c).refreshBaseline system
      turnId := saved.turns
      totalUserTurns := saved.turns
      edits := s.index
      running := false }

/-- The summary `UpdateTurnSideUsage` finds for a turn. -/
def summaryOf (s : NumberedSession) (turn : Nat) : Option (Bytes × Json) :=
  s.conversation.displayFacts.find? fun e =>
    e.2.isObject && jsonValueStr e.2 (lit "kind") [] = lit "turn_summary" &&
      jsonValueInt64 (jsonValue e.2 (lit "summary") (.obj [])) (lit "turn") 0 = turn

/-- The summary with what a child of its turn has used. -/
def amended (usage reported side tools models summary : Json) : Json :=
  ((((summary.set (lit "usage") usage).set (lit "usage_reported") reported).set
    (lit "background_statistics") side).set (lit "tool_calls") tools).set (lit "model_calls") models

/-- The fork is saved and opened. -/
def openFork (s : NumberedSession) (forkTurn : Nat) (source title : Bytes) (usage system : Json) :
    NumberedSession :=
  match s.file.bind fun saved => saved.forked forkTurn source title usage with
  | none => s
  | some record => { s with file := some record, index := [] }.loaded record system

def step (s : NumberedSession) : NumberEvent → NumberedSession
  | .turn =>
    if s.running then s
    else
      { s with
        turnId := s.turnId + 1
        totalUserTurns := s.totalUserTurns + 1
        running := true }
  | .converse change => { s with conversation := s.conversation.step change }
  | .respond key facts request attempt =>
    if s.running then
      { s with
        conversation := s.conversation.recordDisplay key
          ((Json.ofFields facts).set (lit "response_id")
            (.str (responseId s.turnId request attempt))) }
    else s
  | .archive turnStart cap =>
    if s.running then
      { s with
        conversation := s.conversation.archiveTurn turnStart (Int64.ofNat s.turnId) cap }
    else s
  | .compact reason baselineSize cap baseline =>
    { s with
      conversation := (s.conversation.archiveAll reason baselineSize (Int64.ofNat s.turnId)
        cap).resetHistory baseline }
  | .edit => if s.running then { s with edits := s.turnId :: s.edits } else s
  | .saveEdits => { s with index := s.edits }
  | .revert turn =>
    { s with edits := s.edits.filter (· ≠ turn), index := s.edits.filter (· ≠ turn) }
  | .complete root summary stamp =>
    if s.running then
      { s with
        running := false
        conversation := (s.conversation.recordEntry (.ofFields [
          (lit "kind", .str (lit "turn_summary")), (lit "turn_root", .str root),
          (lit "summary", (Json.ofFields summary).set (lit "turn") (turnNumber s.turnId))]) stamp).1 }
    else s
  | .amend turn usage reported side tools models =>
    match s.summaryOf turn with
    | none => s
    | some (key, node) =>
      let summary := amended usage reported side tools models (jsonValue node (lit "summary") (.obj []))
      { s with conversation := s.conversation.recordDisplay key (node.set (lit "summary") summary) }
  | .reset baseline =>
    if s.running then s
    else { s with conversation := Conversation.reset baseline, totalUserTurns := 0 }
  | .save => { s with file := some ⟨s.userTurns, s.conversation⟩ }
  | .load system =>
    match s.file with
    | none => s
    | some saved => s.loaded saved system
  | .fork forkTurn source title usage system => s.openFork forkTurn source title usage system
  | .forkAt message source title usage system =>
    match s.file.bind fun saved => saved.conversation.reopen with
    | none => s
    | some c =>
      if c.userMessageNumber message = 0 then s
      else s.openFork (c.userMessageNumber message) source title usage system

/-- The numbers the session has recorded. -/
def recorded (s : NumberedSession) : List Nat := s.conversation.turns ++ s.edits

end NumberedSession

/-! ### What facts are numbered with -/

section Facts

variable {t : Nat}

theorem factTurns_obj (fields : List (Bytes × Json)) :
    factTurns (.obj fields) = fields.flatMap memberTurns := rfl

/-- A member that is written brings its own numbers. -/
theorem mem_factTurns_set {j v : Json} {key : Bytes} (h : t ∈ factTurns (j.set key v)) :
    t ∈ factTurns j ∨ t ∈ memberTurns (key, v) := by
  cases j with
  | obj fields =>
    rw [Json.set_obj, factTurns_obj, List.mem_flatMap] at h
    obtain ⟨member, hmember, ht⟩ := h
    rcases Assoc.eq_or_mem_of_mem_insert hmember with rfl | hmember
    · exact .inr ht
    · exact .inl (List.mem_flatMap.mpr ⟨member, hmember, ht⟩)
  | null => exact .inr (by simpa [Json.set, factTurns] using h)
  | _ => exact .inl h

theorem mem_factTurns_foldl_set {fields : List (Bytes × Json)} {j : Json}
    (h : t ∈ factTurns (fields.foldl (fun j e => j.set e.1 e.2) j)) :
    t ∈ factTurns j ∨ ∃ e ∈ fields, t ∈ memberTurns e := by
  induction fields generalizing j with
  | nil => exact .inl h
  | cons e fields ih =>
    rcases ih h with h | ⟨e', he', ht⟩
    · rcases mem_factTurns_set h with h | h
      · exact .inl h
      · exact .inr ⟨e, List.mem_cons_self, h⟩
    · exact .inr ⟨e', List.mem_cons_of_mem _ he', ht⟩

theorem mem_factTurns_update {j other : Json} (h : t ∈ factTurns (j.update other)) :
    t ∈ factTurns j ∨ t ∈ factTurns other := by
  cases other with
  | obj fields =>
    refine (mem_factTurns_foldl_set h).imp_right ?_
    rintro ⟨e, he, ht⟩
    exact List.mem_flatMap.mpr ⟨e, he, ht⟩
  | _ => exact .inl h

theorem mem_factTurns_ofFields {fields : List (Bytes × Json)}
    (h : t ∈ factTurns (Json.ofFields fields)) : ∃ e ∈ fields, t ∈ memberTurns e := by
  have hfold : ∀ (fields m : List (Bytes × Json)),
      Json.obj (fields.foldl (fun m e => Assoc.insert e.1 e.2 m) m) =
        fields.foldl (fun (j : Json) e => j.set e.1 e.2) (.obj m) := by
    intro fields
    induction fields with
    | nil => exact fun m => rfl
    | cons e fields ih => exact fun m => ih _
  rw [Json.ofFields, hfold] at h
  rcases mem_factTurns_foldl_set h with h | h
  · exact absurd h List.not_mem_nil
  · exact h

theorem memberTurns_of_ne {key : Bytes} {v : Json} (hsummary : key ≠ lit "summary")
    (hresponse : key ≠ lit "response_id") : memberTurns (key, v) = [] := by
  rw [memberTurns, if_neg hsummary, if_neg hresponse]

/-- A number that is read back is not above the one recorded. -/
theorem summaryTurn_le {summary : Json} {turn : Nat}
    (h : summary.get? (lit "turn") = some (turnNumber turn)) : summaryTurn summary ≤ turn := by
  have hwrap : (Int64.ofNat turn).toInt ≤ turn := by
    have hsize : (Int64.size : Int) = 18446744073709551616 := rfl
    rw [Int64.toInt_ofNat', Int.bmod_eq_emod, hsize]
    split_ifs <;> omega
  rw [summaryTurn, jsonValueInt64, jsonValueInteger, h]
  show (if _ then (0 : Int) else (Int64.ofNat turn).toInt).toNat ≤ turn
  split_ifs <;> omega

/-- Members but the number leave a summary's number. -/
theorem summaryTurn_set {summary v : Json} {key : Bytes} (h : lit "turn" ≠ key) :
    summaryTurn (summary.set key v) = summaryTurn summary := by
  rw [summaryTurn, summaryTurn, jsonValueInt64, jsonValueInteger, jsonValueInteger,
    Json.get?_set_ne summary v h]

end Facts

/-! ### The numbers of a response id -/

theorem readDecimal_decimal (n : Nat) : readDecimal (Json.decimal n) = n := Json.foldl_decimal n

/-- A response id is read as it was made. -/
theorem responseTurn_responseId (turn request attempt : Nat) :
    responseTurn (responseId turn request attempt) = some turn := by
  have hnot : ch '-' ∉ Json.decimal turn := fun h => by
    have hdigit := (Json.digit_of_mem_decimal h).1
    revert hdigit
    decide
  have hstarts : (lit "r-").isPrefixOf (responseId turn request attempt) = true :=
    List.isPrefixOf_iff_prefix.mpr (List.prefix_append _ _)
  have hdrop : (responseId turn request attempt).drop 2 = Json.decimal turn ++
      ch '-' :: (Json.decimal request ++ (lit "-" ++ Json.decimal attempt)) := rfl
  rw [responseTurn, if_pos hstarts, hdrop, untilFirst_append_cons hnot, readDecimal_decimal]

/-! ### What a conversation is numbered with -/

namespace Conversation

variable {c : Conversation} {t : Nat}

theorem mem_turns : t ∈ c.turns ↔
    (∃ e ∈ c.displayFacts, t ∈ factTurns e.2) ∨ ∃ segment ∈ c.archive, summaryTurn segment = t := by
  simp [turns, eq_comm]

theorem evict_frame (key : Bytes) (rounds : Nat) (c : Conversation) :
    (evict key rounds c).displayFacts ⊆ c.displayFacts ∧
      (evict key rounds c).archive = c.archive := by
  induction rounds generalizing c with
  | zero => exact ⟨List.Subset.refl _, rfl⟩
  | succ rounds ih =>
    rw [evict]
    split_ifs
    · split
      · rename_i name bytes _
        obtain ⟨hfacts, harchive⟩ := ih (c.dropFact name bytes)
        exact ⟨fun e he => (Assoc.mem_erase.mp (hfacts he)).1, harchive⟩
      · exact ⟨List.Subset.refl _, rfl⟩
    · exact ⟨List.Subset.refl _, rfl⟩

theorem archive_recordDisplay (c : Conversation) (key : Bytes) (facts : Json) :
    (c.recordDisplay key facts).archive = c.archive := by
  rw [recordDisplay]
  dsimp only
  split_ifs
  · rfl
  · rfl
  · exact (evict_frame key _ _).2

/-- A fact that is recorded brings its own numbers. -/
theorem mem_turns_recordDisplay {key : Bytes} {facts : Json}
    (h : t ∈ (c.recordDisplay key facts).turns) : t ∈ c.turns ∨ t ∈ factTurns facts := by
  rw [mem_turns, archive_recordDisplay] at h
  rcases h with ⟨e, he, ht⟩ | harchive
  · rw [recordDisplay] at he
    dsimp only at he
    split_ifs at he
    · exact .inl (mem_turns.mpr (.inl ⟨e, he, ht⟩))
    · exact .inl (mem_turns.mpr (.inl ⟨e, he, ht⟩))
    · rcases Assoc.eq_or_mem_of_mem_insert ((evict_frame key _ _).1 he) with rfl | he
      · -- the facts written are those sent, over those there
        rw [mergedFacts] at ht
        split at ht
        · rename_i existing hexisting
          split_ifs at ht
          · rcases mem_factTurns_update ht with ht | ht
            · exact .inl (mem_turns.mpr (.inl ⟨_, Assoc.mem_of_lookup hexisting, ht⟩))
            · exact .inr ht
          · exact .inr ht
        · exact .inr ht
      · exact .inl (mem_turns.mpr (.inl ⟨e, he, ht⟩))
  · exact .inl (mem_turns.mpr (.inr harchive))

theorem mem_turns_pushWithDisplayId {message : Json} {kind : MessageKind} {id : UInt64}
    {stamp : Bytes} (h : t ∈ (c.pushWithDisplayId message kind id stamp).turns) : t ∈ c.turns := by
  rw [pushWithDisplayId] at h
  split_ifs at h
  · refine (mem_turns_recordDisplay h).resolve_right fun htime => ?_
    obtain ⟨e, he, ht⟩ := mem_factTurns_ofFields htime
    obtain rfl := List.mem_singleton.mp he
    rw [memberTurns_of_ne (by decide) (by decide)] at ht
    exact absurd ht List.not_mem_nil
  · exact h

/-- The members an entry is given have no numbers. -/
theorem mem_factTurns_entryFacts {id : UInt64} {facts : Json} {stamp : Bytes}
    (h : t ∈ factTurns (entryFacts id facts stamp)) : t ∈ factTurns facts := by
  have hkeys : ∀ v, memberTurns (lit "sequence", v) = [] ∧ memberTurns (lit "id", v) = [] ∧
      memberTurns (lit "kind", v) = [] ∧ memberTurns (lit "time", v) = [] := fun v =>
    ⟨memberTurns_of_ne (by decide) (by decide), memberTurns_of_ne (by decide) (by decide),
      memberTurns_of_ne (by decide) (by decide), memberTurns_of_ne (by decide) (by decide)⟩
  have hset : ∀ {j v : Json} {key : Bytes}, memberTurns (key, v) = [] →
      t ∈ factTurns (j.set key v) → t ∈ factTurns j := fun hnone hmem =>
    (mem_factTurns_set hmem).resolve_right (by rw [hnone]; exact List.not_mem_nil)
  rw [entryFacts] at h
  have h := hset (hkeys _).2.2.2 h
  split_ifs at h
  · exact hset (hkeys _).1 (hset (hkeys _).2.1 h)
  · exact hset (hkeys _).1 (hset (hkeys _).2.1 (hset (hkeys _).2.2.1 h))

theorem mem_turns_recordEntry [DoubleSum] {facts : Json} {stamp : Bytes}
    (h : t ∈ (c.recordEntry facts stamp).1.turns) : t ∈ c.turns ∨ t ∈ factTurns facts := by
  rw [recordEntry] at h
  dsimp only at h
  split_ifs at h
  · exact (mem_turns_recordDisplay h).imp_right mem_factTurns_entryFacts
  · rcases mem_turns_recordDisplay h with h | h
    · exact .inl h
    · rcases mem_factTurns_set h with h | h
      · exact .inr (mem_factTurns_entryFacts h)
      · rw [memberTurns_of_ne (by decide) (by decide)] at h
        exact absurd h List.not_mem_nil

section Archive

variable [DoubleText]

/-- A segment that is archived brings the number of its turn. -/
theorem mem_turns_archiveRange {reason : Bytes} {first last : Nat} {turn : Nat} {cap : Int}
    (h : t ∈ (c.archiveRange reason first last (Int64.ofNat turn) cap).1.turns) :
    t ∈ c.turns ∨ t ≤ turn := by
  rw [archiveRange] at h
  split_ifs at h
  · exact .inl h
  · rw [addArchiveSegment] at h
    split_ifs at h
    · exact .inl h
    · rw [mem_turns] at h
      rcases h with hfacts | ⟨segment, hsegment, rfl⟩
      · exact .inl (mem_turns.mpr (.inl hfacts))
      · rcases List.mem_append.mp hsegment with hsegment | hsegment
        · exact .inl (mem_turns.mpr (.inr ⟨segment, List.mem_of_mem_drop hsegment, rfl⟩))
        · rw [List.mem_singleton.mp hsegment]
          exact .inr (summaryTurn_le rfl)

theorem mem_turns_archiveTurn {turnStart turn : Nat} {cap : Int}
    (h : t ∈ (c.archiveTurn turnStart (Int64.ofNat turn) cap).turns) : t ∈ c.turns ∨ t ≤ turn := by
  rw [archiveTurn] at h
  split_ifs at h
  · exact .inl h
  · exact mem_turns_archiveRange h

end Archive

theorem turns_recordAnnouncedDeliveries (c : Conversation) (id : Bytes) (values : Json) :
    (c.recordAnnouncedDeliveries id values).turns = c.turns := by
  rw [recordAnnouncedDeliveries]
  split_ifs
  · rfl
  · split <;> rfl

theorem turns_set (c : Conversation) (index : Nat) (message : Json) (kind : MessageKind) :
    (c.set index message kind).turns = c.turns := by
  rw [Conversation.set]
  split
  · rfl
  · dsimp only
    split_ifs <;> rfl

theorem turns_refreshBaseline (c : Conversation) (system : Json) :
    (c.refreshBaseline system).turns = c.turns := by
  rw [refreshBaseline]
  split_ifs
  · rfl
  · exact turns_set c 0 system .system

theorem turns_erase (c : Conversation) (first last : Nat) :
    (c.erase first last).turns = c.turns := by
  rw [Conversation.erase]
  split_ifs <;> rfl

theorem turns_truncateBeforeUserTurn (c : Conversation) (turn : Int) :
    (c.truncateBeforeUserTurn turn).1.turns = c.turns := by
  rw [truncateBeforeUserTurn]
  split_ifs
  · rfl
  · split
    · exact turns_erase c _ _
    · rfl

theorem turns_pruneOldToolResults (c : Conversation) (protectChars minimum : Nat)
    (retained : List Bytes) :
    (c.pruneOldToolResults protectChars minimum retained).1.turns = c.turns := by
  rw [pruneOldToolResults]
  split_ifs
  · rfl
  · dsimp only
    split_ifs <;> rfl

/-- A change that records no number. -/
def Unnumbered : ConversationStep → Prop
  | .recordDisplay _ facts | .recordEntry facts _ => factTurns facts = []
  | .reset _ | .restore .. | .archiveRange .. | .archiveTurn .. | .archiveAll .. => False
  | _ => True

instance : (change : ConversationStep) → Decidable (Unnumbered change)
  | .recordDisplay _ facts | .recordEntry facts _ =>
    inferInstanceAs (Decidable (factTurns facts = []))
  | .reset _ | .restore .. | .archiveRange .. | .archiveTurn .. | .archiveAll .. => isFalse id
  | .resetHistory _ | .refreshBaseline _ | .push .. | .pushWithDisplayId .. | .set .. | .erase ..
  | .truncateBeforeUserTurn _ | .addStatistics _ | .recordAnnouncedDeliveries ..
  | .pruneAttachments .. | .pruneOldToolResults .. => isTrue trivial

theorem mem_turns_step [DoubleText] [DoubleSum] {change : ConversationStep}
    (hplain : Unnumbered change) (h : t ∈ (c.step change).turns) : t ∈ c.turns := by
  cases change with
  | reset | restore | archiveRange | archiveTurn | archiveAll => exact hplain.elim
  | recordDisplay key facts =>
    refine (mem_turns_recordDisplay h).resolve_right ?_
    rw [show factTurns facts = [] from hplain]
    exact List.not_mem_nil
  | recordEntry facts stamp =>
    refine (mem_turns_recordEntry h).resolve_right ?_
    rw [show factTurns facts = [] from hplain]
    exact List.not_mem_nil
  | push message kind stamp => exact mem_turns_pushWithDisplayId (c := c.mint) h
  | pushWithDisplayId message kind id stamp => exact mem_turns_pushWithDisplayId h
  | recordAnnouncedDeliveries id values => exact turns_recordAnnouncedDeliveries c id values ▸ h
  | set index message kind => exact turns_set c index message kind ▸ h
  | refreshBaseline system => exact turns_refreshBaseline c system ▸ h
  | erase first last => exact turns_erase c first last ▸ h
  | truncateBeforeUserTurn turn => exact turns_truncateBeforeUserTurn c turn ▸ h
  | pruneOldToolResults protectChars minimum retained =>
    exact turns_pruneOldToolResults c protectChars minimum retained ▸ h
  | resetHistory | addStatistics | pruneAttachments => exact h

/-- A conversation that is restored has the numbers of the one saved. -/
theorem turns_of_reopen [DoubleText] {c' : Conversation} (h : c.reopen = some c') :
    c'.turns = c.turns := by
  rw [reopen, restore] at h
  split_ifs at h
  obtain ⟨⟨ids, facts, next⟩, hdisplay, rfl⟩ := Option.map_eq_some_iff.mp h
  have hfacts : facts = c.displayFacts := by
    rw [restoreDisplay, if_neg (show ¬c.displayMetadata.isEmpty = true from Bool.false_ne_true),
      jsonArray_ids_displayMetadata, jsonObject_facts_displayMetadata] at hdisplay
    dsimp only at hdisplay
    split_ifs at hdisplay
    obtain ⟨_, -, heq⟩ := Option.map_eq_some_iff.mp hdisplay
    exact ((Prod.mk.inj (Prod.mk.inj heq).2).1).symm
  rw [hfacts]
  rfl

end Conversation

/-! ### The numbers of a session -/

namespace NumberedSession

/-- Every number that is recorded, live or saved, has been given. -/
structure Inv (s : NumberedSession) : Prop where
  conversation : ∀ t ∈ s.conversation.turns, t ≤ s.turnId
  edits : ∀ t ∈ s.edits, t ≤ s.turnId
  file : ∀ saved ∈ s.file, ∀ t ∈ saved.conversation.turns, t ≤ saved.turns

/-- The condition.  A session is saved when its count has kept up with its
numbers: no `Reset` has cleared the one and not the other.  It is opened with
a journal of edits whose turns its record counts.  A fork at a message is
taken from a session that has recorded no number from the message's own on. -/
def SoundEvent [DoubleText] (s : NumberedSession) : NumberEvent → Prop
  | .converse change => Conversation.Unnumbered change
  | .respond _ facts _ _ => ∀ e ∈ facts, e.1 ≠ lit "summary" ∧ e.1 ≠ lit "response_id"
  | .save => s.totalUserTurns = s.turnId
  | .load _ => ∀ saved ∈ s.file, ∀ t ∈ s.index, t ≤ saved.turns
  | .fork forkTurn .. =>
    0 < forkTurn → ∀ saved ∈ s.file, ∀ t ∈ saved.conversation.turns, t < forkTurn
  | .forkAt message .. => ∀ saved ∈ s.file, ∀ c ∈ saved.conversation.reopen,
    ∀ t ∈ saved.conversation.turns, t < c.userMessageNumber message ∨ c.userMessageNumber message = 0
  | _ => True

instance [DoubleText] (s : NumberedSession) (e : NumberEvent) : Decidable (s.SoundEvent e) := by
  cases e <;> unfold SoundEvent <;> infer_instance

section Steps

variable [DoubleText] [DoubleSum] {s : NumberedSession} {t : Nat}

omit [DoubleText] [DoubleSum] in
/-- The rows that are cut off have no numbers. -/
theorem mem_turns_cut (keys : List Bytes) (c : Conversation)
    (h : t ∈ (keys.foldl (fun c key => c.recordDisplay key cutFact) c).turns) : t ∈ c.turns := by
  induction keys generalizing c with
  | nil => exact h
  | cons key keys ih =>
    refine (Conversation.mem_turns_recordDisplay (ih _ h)).resolve_right ?_
    have hcut : factTurns cutFact = [] := by decide
    rw [hcut]
    exact List.not_mem_nil

omit [DoubleSum] in
/-- A record that counts its numbers is opened. -/
theorem Inv.loaded (h : s.Inv) {saved : SavedSession} (system : Json)
    (hsaved : ∀ t ∈ saved.conversation.turns, t ≤ saved.turns)
    (hindex : ∀ t ∈ s.index, t ≤ saved.turns) : (s.loaded saved system).Inv := by
  rw [NumberedSession.loaded]
  rcases hopen : saved.conversation.reopen with - | c
  · exact h
  · refine ⟨fun t ht => hsaved t ?_, hindex, h.file⟩
    rw [← Conversation.turns_of_reopen hopen]
    have ht : t ∈ (Conversation.refreshBaseline _ system).turns := ht
    rw [Conversation.turns_refreshBaseline] at ht
    exact mem_turns_cut _ c ht

omit [DoubleText] [DoubleSum] in
/-- The fact of a fork has no number. -/
theorem mem_turns_withOrigin {record : SavedSession} {source title : Bytes} {usage : Json}
    (h : t ∈ (record.withOrigin source title usage).conversation.turns) :
    t ∈ record.conversation.turns := by
  rw [Conversation.mem_turns] at h ⊢
  rcases h with ⟨e, he, ht⟩ | ht
  · rcases Assoc.eq_or_mem_of_mem_insert he with rfl | he
    · obtain ⟨e, he, ht⟩ := mem_factTurns_ofFields ht
      have hkeys : ∀ key ∈ [lit "source", lit "title", lit "turns", lit "usage", lit "statistics"],
          key ≠ lit "summary" ∧ key ≠ lit "response_id" := by decide
      have hkey := hkeys e.1 (List.mem_map_of_mem (f := Prod.fst) he)
      rw [memberTurns_of_ne hkey.1 hkey.2] at ht
      exact absurd ht List.not_mem_nil
    · exact .inl ⟨e, he, ht⟩
  · exact .inr ht

omit [DoubleSum] in
/-- The record of a fork counts its numbers when those left do. -/
theorem forked_counts {saved record : SavedSession} {forkTurn : Nat} {source title : Bytes}
    {usage : Json} (hfork : saved.forked forkTurn source title usage = some record)
    (hsaved : ∀ t ∈ saved.conversation.turns, t ≤ saved.turns)
    (hcut : 0 < forkTurn → ∀ t ∈ saved.conversation.turns, t < forkTurn) :
    ∀ t ∈ record.conversation.turns, t ≤ record.turns := by
  obtain ⟨kept, hkept, rfl⟩ := Option.map_eq_some_iff.mp hfork
  obtain ⟨c, hopen, hkept⟩ := Option.bind_eq_some_iff.mp hkept
  have hsame := Conversation.turns_of_reopen hopen
  intro t ht
  have ht := mem_turns_withOrigin ht
  show t ≤ kept.turns
  rw [SavedSession.cutAt] at hkept
  split_ifs at hkept with hwhole hfound
  · obtain rfl := Option.some.inj hkept
    exact hsaved t (hsame ▸ ht)
  · obtain rfl := Option.some.inj hkept
    rw [Conversation.turns_truncateBeforeUserTurn, hsame] at ht
    exact Nat.le_sub_one_of_lt (hcut (Nat.pos_of_ne_zero hwhole) t ht)

omit [DoubleSum] in
theorem Inv.openFork (h : s.Inv) (forkTurn : Nat) (source title : Bytes) (usage system : Json)
    (hcut : 0 < forkTurn → ∀ saved ∈ s.file, ∀ t ∈ saved.conversation.turns, t < forkTurn) :
    (s.openFork forkTurn source title usage system).Inv := by
  rw [NumberedSession.openFork]
  rcases hfork : s.file.bind fun saved => saved.forked forkTurn source title usage with - | record
  · exact h
  · obtain ⟨saved, hfile, hrecord⟩ := Option.bind_eq_some_iff.mp hfork
    have hcounts := forked_counts hrecord (h.file saved hfile) fun hpos => hcut hpos saved hfile
    have hsaved : Inv { s with file := some record, index := [] } := by
      refine ⟨h.conversation, h.edits, fun other hother => ?_⟩
      obtain rfl := Option.some.inj hother
      exact hcounts
    exact hsaved.loaded system hcounts fun t ht => absurd ht List.not_mem_nil

omit [DoubleText] [DoubleSum] in
/-- A summary that is amended keeps its number. -/
theorem mem_turns_amend (h : s.Inv) {turn : Nat} {key : Bytes} {node : Json}
    (hfind : s.summaryOf turn = some (key, node)) (usage reported side tools models : Json)
    (ht : t ∈ (s.conversation.recordDisplay key (node.set (lit "summary")
      (amended usage reported side tools models
        (jsonValue node (lit "summary") (.obj []))))).turns) : t ≤ s.turnId := by
  have hmem : (key, node) ∈ s.conversation.displayFacts := List.mem_of_find?_eq_some hfind
  have hnode : ∀ t ∈ factTurns node, t ≤ s.turnId := fun t ht =>
    h.conversation t (Conversation.mem_turns.mpr (.inl ⟨_, hmem, ht⟩))
  rcases Conversation.mem_turns_recordDisplay ht with ht | ht
  · exact h.conversation t ht
  · rcases mem_factTurns_set ht with ht | ht
    · exact hnode t ht
    · have hkeys : lit "turn" ≠ lit "usage" ∧ lit "turn" ≠ lit "usage_reported" ∧
          lit "turn" ≠ lit "background_statistics" ∧ lit "turn" ≠ lit "tool_calls" ∧
            lit "turn" ≠ lit "model_calls" := by decide
      have hsame : summaryTurn (amended usage reported side tools models
          (jsonValue node (lit "summary") (.obj []))) =
            summaryTurn (jsonValue node (lit "summary") (.obj [])) := by
        rw [amended, summaryTurn_set hkeys.2.2.2.2, summaryTurn_set hkeys.2.2.2.1,
          summaryTurn_set hkeys.2.2.1, summaryTurn_set hkeys.2.1, summaryTurn_set hkeys.1]
      obtain rfl : t = _ := List.mem_singleton.mp ht
      rw [hsame, jsonValue]
      rcases hheld : node.get? (lit "summary") with - | summary
      · exact Nat.zero_le _
      · refine hnode _ ?_
        cases node with
        | obj fields =>
          exact List.mem_flatMap.mpr ⟨_, Assoc.mem_of_lookup hheld, List.mem_singleton_self _⟩
        | _ => cases hheld

/-- Every step keeps the invariant. -/
theorem Inv.step (h : s.Inv) {e : NumberEvent} (hok : s.SoundEvent e) : (s.step e).Inv := by
  cases e with
  | turn =>
    show (if s.running then s else _).Inv
    split_ifs
    · exact h
    · exact ⟨fun t ht => Nat.le_succ_of_le (h.conversation t ht),
        fun t ht => Nat.le_succ_of_le (h.edits t ht), h.file⟩
  | converse change =>
    exact ⟨fun t ht => h.conversation t (Conversation.mem_turns_step hok ht), h.edits, h.file⟩
  | respond key facts request attempt =>
    show (if s.running then _ else s).Inv
    split_ifs
    · refine ⟨fun t ht => ?_, h.edits, h.file⟩
      rcases Conversation.mem_turns_recordDisplay ht with ht | ht
      · exact h.conversation t ht
      · rcases mem_factTurns_set ht with ht | ht
        · obtain ⟨e, he, ht⟩ := mem_factTurns_ofFields ht
          rw [memberTurns_of_ne (hok e he).1 (hok e he).2] at ht
          exact absurd ht List.not_mem_nil
        · have hne : lit "response_id" ≠ lit "summary" := by decide
          rw [memberTurns, if_neg hne, if_pos rfl] at ht
          dsimp only at ht
          rw [responseTurn_responseId] at ht
          exact (List.mem_singleton.mp ht).le
    · exact h
  | archive turnStart cap =>
    show (if s.running then _ else s).Inv
    split_ifs
    · exact ⟨fun t ht => (Conversation.mem_turns_archiveTurn ht).elim (h.conversation t) id,
        h.edits, h.file⟩
    · exact h
  | compact reason baselineSize cap baseline =>
    exact ⟨fun t ht => (Conversation.mem_turns_archiveRange ht).elim (h.conversation t) id,
      h.edits, h.file⟩
  | edit =>
    show (if s.running then _ else s).Inv
    split_ifs
    · exact ⟨h.conversation, List.forall_mem_cons.mpr ⟨le_rfl, h.edits⟩, h.file⟩
    · exact h
  | saveEdits => exact ⟨h.conversation, h.edits, h.file⟩
  | revert turn =>
    exact ⟨h.conversation, fun t ht => h.edits t (List.mem_of_mem_filter ht), h.file⟩
  | complete root summary stamp =>
    show (if s.running then _ else s).Inv
    split_ifs
    · refine ⟨fun t ht => ?_, h.edits, h.file⟩
      rcases Conversation.mem_turns_recordEntry ht with ht | ht
      · exact h.conversation t ht
      · obtain ⟨e, he, ht⟩ := mem_factTurns_ofFields ht
        simp only [List.mem_cons, List.not_mem_nil, or_false] at he
        rcases he with rfl | rfl | rfl
        · rw [memberTurns_of_ne (by decide) (by decide)] at ht
          exact absurd ht List.not_mem_nil
        · rw [memberTurns_of_ne (by decide) (by decide)] at ht
          exact absurd ht List.not_mem_nil
        · obtain rfl : t = _ := List.mem_singleton.mp ht
          refine summaryTurn_le ?_
          rw [Json.get?_set (Json.keyed_ofFields _).isObject, if_pos rfl]
    · exact h
  | amend turn usage reported side tools models =>
    rw [NumberedSession.step]
    rcases hfind : s.summaryOf turn with - | ⟨key, node⟩
    · exact h
    · have hnumbers := fun t => mem_turns_amend (t := t) h hfind usage reported side tools models
      exact ⟨hnumbers, h.edits, h.file⟩
  | reset baseline =>
    show (if s.running then s else _).Inv
    split_ifs
    · exact h
    · exact ⟨fun t ht => absurd ht List.not_mem_nil, h.edits, h.file⟩
  | save =>
    refine ⟨h.conversation, h.edits, fun saved hsaved t ht => ?_⟩
    obtain rfl := Option.some.inj hsaved
    have ht := h.conversation t ht
    have hkept : s.totalUserTurns = s.turnId := hok
    show t ≤ s.userTurns
    rw [userTurns]
    split_ifs <;> omega
  | load system =>
    rw [NumberedSession.step]
    rcases hfile : s.file with - | saved
    · exact h
    · exact h.loaded system (h.file saved hfile) (hok saved hfile)
  | fork forkTurn source title usage system => exact h.openFork _ _ _ _ _ hok
  | forkAt message source title usage system =>
    rw [NumberedSession.step]
    rcases hopen : s.file.bind fun saved => saved.conversation.reopen with - | c
    · exact h
    · obtain ⟨saved, hfile, hopen⟩ := Option.bind_eq_some_iff.mp hopen
      dsimp only
      split_ifs with hnone
      · exact h
      · refine h.openFork _ _ _ _ _ fun _ other hother t ht => ?_
        obtain rfl : saved = other := Option.some.inj (hfile.symm.trans hother)
        exact (hok saved hfile c hopen t ht).resolve_right hnone

end Steps

/-- A session that starts. -/
def fresh (baseline : List (Json × MessageKind)) : NumberedSession :=
  { conversation := Conversation.reset baseline }

/-- **Turn numbers.**  In a run whose steps all meet the condition, a new turn
is given a number above all that the session has recorded. -/
theorem turn_numbers_grow [DoubleText] [DoubleSum] {baseline : List (Json × MessageKind)}
    {s : NumberedSession} (h : Run step SoundEvent (fresh baseline) s) (hidle : s.running = false) :
    ∀ t ∈ s.recorded, t < (s.step .turn).turnId := by
  have hinv : s.Inv := by
    refine h.invariant ⟨?_, ?_, ?_⟩ fun _ _ hinv hok => hinv.step hok
    · exact fun t ht => absurd ht List.not_mem_nil
    · exact fun t ht => absurd ht List.not_mem_nil
    · exact fun saved hsaved => absurd hsaved (by simp [fresh])
  have hnext : (s.step .turn).turnId = s.turnId + 1 := by
    show (if s.running then s else _).turnId = _
    rw [hidle]
    rfl
  intro t ht
  rw [hnext]
  refine Nat.lt_succ_of_le ?_
  rcases List.mem_append.mp ht with ht | ht
  · exact hinv.conversation t ht
  · exact hinv.edits t ht

/-! ### Two turns and a fork -/

/-- A turn: its prompt, the facts of its answer, a file it changes, its summary. -/
def turnOf (prompt : Bytes) : List NumberEvent :=
  [.turn, .converse (.push (.ofFields [(lit "content", .str prompt)]) .user (lit "09:00")),
    .respond (lit "m-9") [(lit "duration_ms", .int 5)] 1 1, .edit,
    .complete (lit "m-2") [(lit "steps", .int 1)] (lit "09:01"), .saveEdits]

/-- A run of a session with a system message. -/
def runNumbers (events : List NumberEvent) : NumberedSession :=
  let _ := Json.bitsText
  let _ := zeroSum
  events.foldl step (fresh [(.ofFields [(lit "content", .str (lit "Be brief."))], .system)])

/-- The system message of a session that is opened. -/
def briefly : Json := .ofFields [(lit "content", .str (lit "Be brief."))]

theorem turn_numbers_grow_resumed :
    (runNumbers (turnOf (lit "one") ++ [.save, .load briefly] ++
      turnOf (lit "two"))).recorded.all (· < 3) = true := by
  let _ := Json.bitsText
  let _ := zeroSum
  have hrun : Run step SoundEvent (fresh [(briefly, .system)]) (runNumbers (turnOf (lit "one") ++
      [.save, .load briefly] ++ turnOf (lit "two"))) := Run.of_allOk (by decide)
  exact List.all_eq_true.mpr fun t ht => decide_eq_true (turn_numbers_grow hrun (by decide) t ht)

/-- **A fork numbers a turn again.**  The fork at the second message keeps the
summary of the second turn, and its first turn is the second once more.  A
session that is reset after two turns, and opened after another, does so too. -/
theorem fork_numbers_again :
    2 ∈ (runNumbers (turnOf (lit "one") ++ turnOf (lit "two") ++
        [.save, .fork 2 (lit "s") [] .null briefly])).recorded ∧
      (runNumbers (turnOf (lit "one") ++ turnOf (lit "two") ++
        [.save, .fork 2 (lit "s") [] .null briefly, .turn])).turnId = 2 ∧
      3 ∈ (runNumbers (turnOf (lit "one") ++ turnOf (lit "two") ++
        [.reset [(briefly, .system)]] ++ turnOf (lit "three") ++
          [.save, .load briefly])).recorded ∧
      (runNumbers (turnOf (lit "one") ++ turnOf (lit "two") ++
        [.reset [(briefly, .system)]] ++ turnOf (lit "three") ++
          [.save, .load briefly, .turn])).turnId = 2 := by
  refine ⟨?_, ?_, ?_, ?_⟩ <;> decide

end NumberedSession

end UAgent
