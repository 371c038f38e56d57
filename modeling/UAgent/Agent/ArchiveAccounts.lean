/-
UAgent/Agent/ArchiveAccounts.lean

The archive of a conversation (`AddArchiveSegment`, src/agent/conversation.cc)
is kept three times: as JSON, as one text for each segment and as a count of
the bytes the texts take with the commas between them.  A segment that is
taken makes room by expiring the oldest ones; what does not fit at all is
refused.

`ArchiveLog` notes beside a conversation what its archive was at the last
reset or restore and what became of every segment offered since.  Main
result: `archive_accounts`: over every run of the mutators the three copies
agree, the archive is the newest end of what was taken, and the count of
dropped segments is that of the refused and the expired ones.
-/
import UAgent.Agent.DisplayFacts
import UAgent.Agent.ConversationRestore

namespace UAgent

open Bytes

namespace Conversation

/-! ### Counting bytes -/

/-- The bytes of texts with a comma between any two. -/
def joinedBytes (texts : List Bytes) : Nat := (texts.map List.length).sum + (texts.length - 1)

/-- The comma before what follows. -/
def commaBytes (texts : List Bytes) : Nat := if texts = [] then 0 else 1

theorem joinedBytes_cons (text : Bytes) (texts : List Bytes) :
    joinedBytes (text :: texts) = text.length + commaBytes texts + joinedBytes texts := by
  cases texts with
  | nil => simp [joinedBytes, commaBytes]
  | cons next texts =>
    simp only [joinedBytes, commaBytes, List.map_cons, List.sum_cons, List.length_cons,
      reduceCtorEq, if_false]
    omega

theorem joinedBytes_append_singleton (texts : List Bytes) (text : Bytes) :
    joinedBytes (texts ++ [text]) = joinedBytes texts + (text.length + commaBytes texts) := by
  induction texts with
  | nil => simp [joinedBytes, commaBytes]
  | cons first texts ih =>
    have hne : commaBytes (texts ++ [text]) = 1 := if_neg (by simp)
    have hcons : commaBytes (first :: texts) = 1 := if_neg (by simp)
    rw [List.cons_append, joinedBytes_cons, joinedBytes_cons, ih, hne, hcons]
    omega

theorem length_joinWith (texts : List Bytes) :
    (joinWith [ch ','] texts).length = joinedBytes texts := by
  induction texts with
  | nil => rfl
  | cons text texts ih =>
    cases texts with
    | nil => simp [joinedBytes]
    | cons next texts =>
      have hcomma : commaBytes (next :: texts) = 1 := if_neg (by simp)
      have hjoin : joinWith [ch ','] ([text] ++ next :: texts) =
          joinWith [ch ','] [text] ++ [ch ','] ++ joinWith [ch ','] (next :: texts) :=
        joinWith_append _ (List.cons_ne_nil _ _) (List.cons_ne_nil _ _)
      rw [List.singleton_append, joinWith_singleton] at hjoin
      rw [hjoin, joinedBytes_cons, ← ih, hcomma, List.length_append, List.length_append]
      rfl

/-! ### Making room -/

/-- **The loop of `AddArchiveSegment`.**  A text of at most `cap` bytes: the
oldest ones expire until it fits behind the others. -/
theorem expire_eq {cap : Int} {text : Bytes} (hfits : (text.length : Int) ≤ cap)
    (texts : List Bytes) :
    let expired := expire cap text.length (joinedBytes texts) (text.length + commaBytes texts) texts
    expired.1 ≤ texts.length ∧ expired.2 = joinedBytes (texts.drop expired.1 ++ [text]) ∧
      expired.2 ≤ cap := by
  induction texts with
  | nil =>
    refine ⟨le_rfl, ?_, ?_⟩
    · simp [expire, joinedBytes, commaBytes]
    · simpa [expire, joinedBytes, commaBytes] using hfits
  | cons first texts ih =>
    obtain ⟨hle, hbytes, hcap⟩ := ih
    dsimp only
    rw [expire]
    by_cases hover : cap < (joinedBytes (first :: texts) : Int) +
        (text.length + commaBytes (first :: texts))
    · -- the oldest one goes, and the comma behind it when there was one
      have hcomma : (if texts = [] then (0 : Int) else 1) = commaBytes texts := by
        rw [commaBytes]
        split_ifs <;> rfl
      have htotal : (joinedBytes (first :: texts) : Int) - (first.length + commaBytes texts) =
          joinedBytes texts := by
        rw [joinedBytes_cons]
        omega
      rw [if_pos hover, hcomma]
      dsimp only
      rw [htotal]
      exact ⟨Nat.succ_le_succ hle, hbytes, hcap⟩
    · rw [if_neg hover]
      refine ⟨Nat.zero_le _, ?_, not_lt.mp hover⟩
      rw [List.drop_zero, joinedBytes_append_singleton, Nat.cast_add, Nat.cast_add]

/-! ### What leaves the archive alone -/

/-- What the accounts are kept in. -/
def SameArchive (c c' : Conversation) : Prop :=
  c'.archive = c.archive ∧ c'.archiveTexts = c.archiveTexts ∧ c'.archiveBytes = c.archiveBytes ∧
    c'.droppedSegments = c.droppedSegments

theorem sameArchive_recordDisplay (c : Conversation) (key : Bytes) (facts : Json) :
    SameArchive c (c.recordDisplay key facts) := by
  rw [frame_recordDisplay]
  exact ⟨rfl, rfl, rfl, rfl⟩

theorem sameArchive_pushWithDisplayId (c : Conversation) (message : Json) (kind : MessageKind)
    (id : UInt64) (stamp : Bytes) : SameArchive c (c.pushWithDisplayId message kind id stamp) := by
  rw [pushWithDisplayId]
  split_ifs
  · exact sameArchive_recordDisplay (c.appendRow _) _ _
  · exact ⟨rfl, rfl, rfl, rfl⟩

theorem sameArchive_set (c : Conversation) (index : Nat) (message : Json) (kind : MessageKind) :
    SameArchive c (c.set index message kind) := by
  rw [Conversation.set]
  rcases c.rows[index]? with - | row
  · exact ⟨rfl, rfl, rfl, rfl⟩
  · dsimp only
    split_ifs <;> exact ⟨rfl, rfl, rfl, rfl⟩

theorem sameArchive_erase (c : Conversation) (first last : Nat) :
    SameArchive c (c.erase first last) := by
  rw [erase]
  split_ifs <;> exact ⟨rfl, rfl, rfl, rfl⟩

/-- Steps that neither archive nor start anew leave the archive alone, and
offer nothing. -/
def LeavesArchive : ConversationStep → Prop
  | .reset _ | .restore .. | .archiveRange .. | .archiveTurn .. | .archiveAll .. => False
  | _ => True

/-! ### What is offered -/

section Runs

variable [DoubleText]

/-- The segment `ArchiveRange` makes of its rows, if there are any. -/
def rangeSegment (c : Conversation) (reason : Bytes) (first last : Nat) (turn : Int64) :
    Option Json :=
  let saved := (c.rows.take last).drop first
  if saved = [] then none
  else
    some (.ofFields [(lit "turn", .int turn), (lit "reason", .str reason),
      (lit "messages", .arr (saved.map (·.message))),
      (lit "message_kinds", .arr (saved.map fun row => .str (messageKindName row.kind))),
      (lit "display_ids", .arr (saved.map fun row => .uint row.id))])

/-- The segment a step offers the archive, with its cap. -/
def offered (c : Conversation) : ConversationStep → Option (Json × Int)
  | .archiveRange reason first last turn cap =>
    (c.rangeSegment reason first last turn).map (·, cap)
  | .archiveTurn turnStart turn cap =>
    if c.rows.length ≤ turnStart + 2 then none
    else
      (c.rangeSegment (lit "tool_trace") (turnStart + 1) (c.rows.length - 1) turn).map (·, cap)
  | .archiveAll reason baselineSize turn cap =>
    (c.rangeSegment reason baselineSize c.rows.length turn).map (·, cap)
  | _ => none

/-- The archive at the last reset or restore, the segments dropped before it,
and every segment offered since. -/
structure ArchiveLog where
  base : List Json := []
  baseDropped : Int := 0
  offers : List (Json × Int) := []

namespace ArchiveLog

/-- What `AddArchiveSegment` takes. -/
def accepts (offer : Json × Int) : Bool := !(offer.2 ≤ 0 || offer.2 < offer.1.dump.length)

/-- The segments that were taken, in order. -/
def taken (log : ArchiveLog) : List Json := (log.offers.filter accepts).map Prod.fst

/-- How many were refused. -/
def refused (log : ArchiveLog) : Nat := log.offers.countP fun offer => !accepts offer

/-- One step, noted. -/
def note (log : ArchiveLog) (c : Conversation) : ConversationStep → ArchiveLog
  | .reset _ => {}
  | .restore messages kinds archive dropped display =>
    match restore messages kinds archive dropped display with
    | none => log
    | some c' => { base := c'.archive, baseDropped := c'.droppedSegments }
  | step => { log with offers := log.offers ++ (c.offered step).toList }

end ArchiveLog

/-- A step of a conversation beside its log. -/
def loggedStep [DoubleSum] (s : Conversation × ArchiveLog) (step : ConversationStep) :
    Conversation × ArchiveLog :=
  (s.1.step step, s.2.note s.1 step)

/-! ### The accounts -/

/-- The three copies of the archive agree, and it is the newest end of what
was taken. -/
structure Archived (c : Conversation) (log : ArchiveLog) : Prop where
  texts : c.archiveTexts = c.archive.map Json.dump
  bytes : c.archiveBytes = joinedBytes c.archiveTexts
  newest : ∃ expired : Nat, expired ≤ (log.base ++ log.taken).length ∧
    c.archive = (log.base ++ log.taken).drop expired ∧
    c.droppedSegments = log.baseDropped + log.refused + expired

theorem Archived.congr {c c' : Conversation} {log : ArchiveLog} (h : Archived c log)
    (hsame : SameArchive c c') : Archived c' log := by
  obtain ⟨harchive, htexts, hbytes, hdropped⟩ := hsame
  obtain ⟨expired, hle, hkept, hcount⟩ := h.newest
  exact ⟨by rw [htexts, harchive, h.texts], by rw [hbytes, htexts, h.bytes],
    expired, hle, by rw [harchive, hkept], by rw [hdropped, hcount]⟩

namespace Archived

variable {c : Conversation} {log : ArchiveLog}

theorem archiveText_eq (h : Archived c log) : c.archiveText = Json.dump (.arr c.archive) := by
  rw [archiveText, Json.dump_arr, h.texts]

theorem length_archiveText (h : Archived c log) :
    (c.archiveText.length : Int) = c.archiveBytes + 2 := by
  rw [archiveText, List.length_cons, List.length_append, length_joinWith, h.bytes]
  push_cast
  rw [List.length_singleton]
  omega

/-- How many segments a new one expires, and what the archive then takes. -/
theorem expired_eq (h : Archived c log) {text : Bytes} {cap : Int}
    (hfits : (text.length : Int) ≤ cap) :
    (c.expired text cap).1 ≤ c.archiveTexts.length ∧
      (c.expired text cap).2 =
        joinedBytes (c.archiveTexts.drop (c.expired text cap).1 ++ [text]) ∧
      (c.expired text cap).2 ≤ cap := by
  have hcomma : (if c.archive = [] then (0 : Int) else 1) = commaBytes c.archiveTexts := by
    have hnil : c.archiveTexts = [] ↔ c.archive = [] := by rw [h.texts, List.map_eq_nil_iff]
    rw [commaBytes]
    by_cases hempty : c.archive = []
    · rw [if_pos hempty, if_pos (hnil.mpr hempty)]
      rfl
    · rw [if_neg hempty, if_neg (mt hnil.mp hempty)]
      rfl
  have hexpire := expire_eq hfits c.archiveTexts
  rw [expired, h.bytes, hcomma]
  exact hexpire

/-- **An offer.**  Taken, it makes room within its cap; refused, it counts. -/
theorem addArchiveSegment (h : Archived c log) (segment : Json) (cap : Int) :
    Archived (c.addArchiveSegment segment cap).1
      { log with offers := log.offers ++ [(segment, cap)] } := by
  obtain ⟨dropped, hle, hkept, hcount⟩ := h.newest
  have haccepts : ArchiveLog.accepts (segment, cap) = true ↔
      ¬ (cap ≤ 0 ∨ cap < segment.dump.length) := by
    simp [ArchiveLog.accepts]
  by_cases hout : cap ≤ 0 ∨ cap < segment.dump.length
  · have hrefuses : ArchiveLog.accepts (segment, cap) = false :=
      Bool.eq_false_iff.mpr fun htrue => haccepts.mp htrue hout
    rw [Conversation.addArchiveSegment, if_pos hout]
    refine ⟨h.texts, h.bytes, dropped, ?_, ?_, ?_⟩
    · simpa [ArchiveLog.taken, List.filter_append, hrefuses] using hle
    · simpa [ArchiveLog.taken, List.filter_append, hrefuses] using hkept
    · have hrefused : ({ log with offers := log.offers ++ [(segment, cap)] } : ArchiveLog).refused =
          log.refused + 1 := by
        simp [ArchiveLog.refused, List.countP_append, hrefuses]
      show c.droppedSegments + 1 = log.baseDropped + (_ : Nat) + dropped
      rw [hrefused, hcount]
      omega
  · have htakes : ArchiveLog.accepts (segment, cap) = true := haccepts.mpr hout
    have hfits : (segment.dump.length : Int) ≤ cap := by
      rw [not_or, not_le, not_lt] at hout
      exact hout.2
    obtain ⟨hexpired, hbytes, -⟩ := h.expired_eq hfits
    have htaken : ({ log with offers := log.offers ++ [(segment, cap)] } : ArchiveLog).taken =
        log.taken ++ [segment] := by
      simp [ArchiveLog.taken, List.filter_append, htakes]
    have hrefused : ({ log with offers := log.offers ++ [(segment, cap)] } : ArchiveLog).refused =
        log.refused := by
      simp [ArchiveLog.refused, List.countP_append, htakes]
    have hlength : c.archiveTexts.length = (log.base ++ log.taken).length - dropped := by
      rw [h.texts, List.length_map, hkept, List.length_drop]
    rw [Conversation.addArchiveSegment, if_neg hout]
    refine ⟨?_, hbytes, dropped + (c.expired segment.dump cap).1, ?_, ?_, ?_⟩
    · show c.archiveTexts.drop _ ++ [_] = (c.archive.drop _ ++ [_]).map Json.dump
      rw [h.texts, List.map_append, List.map_drop]
      rfl
    · show _ ≤ (log.base ++ _).length
      rw [htaken, ← List.append_assoc, List.length_append]
      omega
    · show c.archive.drop _ ++ [segment] = (log.base ++ _).drop _
      rw [htaken, ← List.append_assoc, List.drop_append_of_le_length (by omega), hkept,
        List.drop_drop]
    · show c.droppedSegments + ((c.expired segment.dump cap).1 : Int) =
        log.baseDropped + (_ : Nat) + _
      rw [hrefused, hcount, Nat.cast_add]
      omega

/-- What was just taken leaves the archive within its cap. -/
theorem bytes_le_cap (h : Archived c log) {segment : Json} {cap : Int}
    (htaken : (c.addArchiveSegment segment cap).2 = true) :
    (c.addArchiveSegment segment cap).1.archiveBytes ≤ cap := by
  rw [Conversation.addArchiveSegment] at htaken ⊢
  split_ifs at htaken ⊢ with hout
  rw [not_or, not_le, not_lt] at hout
  exact (h.expired_eq hout.2).2.2

end Archived

/-! ### Runs -/

/-- The archive after an offer. -/
def addOffer (c : Conversation) (offer : Option (Json × Int)) : Conversation :=
  match offer with
  | none => c
  | some offer => (c.addArchiveSegment offer.1 offer.2).1

theorem Archived.addOffer {c : Conversation} {log : ArchiveLog} (h : Archived c log)
    (offer : Option (Json × Int)) :
    Archived (c.addOffer offer) { log with offers := log.offers ++ offer.toList } := by
  cases offer with
  | none => simpa [Conversation.addOffer] using h
  | some offer => exact h.addArchiveSegment offer.1 offer.2

/-- Archiving a range offers the segment made of it. -/
theorem archiveRange_eq (c : Conversation) (reason : Bytes) (first last : Nat) (turn : Int64)
    (cap : Int) :
    (c.archiveRange reason first last turn cap).1 =
      c.addOffer ((c.rangeSegment reason first last turn).map (·, cap)) := by
  rw [archiveRange, rangeSegment]
  split_ifs <;> rfl

theorem note_of_leavesArchive (log : ArchiveLog) (c : Conversation) {step : ConversationStep}
    (h : LeavesArchive step) : log.note c step = log := by
  cases step with
  | reset | restore | archiveRange | archiveTurn | archiveAll => exact h.elim
  | _ => exact congrArg (ArchiveLog.mk log.base log.baseDropped) (List.append_nil _)

end Runs

section Steps

variable [DoubleText] [DoubleSum]

theorem sameArchive_step (c : Conversation) {step : ConversationStep} (h : LeavesArchive step) :
    SameArchive c (c.step step) := by
  cases step with
  | reset | restore | archiveRange | archiveTurn | archiveAll => exact h.elim
  | resetHistory | addStatistics | pruneAttachments => exact ⟨rfl, rfl, rfl, rfl⟩
  | refreshBaseline system =>
    show SameArchive c (c.refreshBaseline system)
    rw [refreshBaseline]
    split_ifs
    · exact ⟨rfl, rfl, rfl, rfl⟩
    · exact sameArchive_set c _ _ _
  | push message kind stamp => exact sameArchive_pushWithDisplayId c.mint _ _ _ _
  | pushWithDisplayId message kind id stamp => exact sameArchive_pushWithDisplayId c _ _ _ _
  | set index message kind => exact sameArchive_set c _ _ _
  | erase first last => exact sameArchive_erase c _ _
  | truncateBeforeUserTurn turn =>
    show SameArchive c (c.truncateBeforeUserTurn turn).1
    rw [truncateBeforeUserTurn]
    split_ifs
    · exact ⟨rfl, rfl, rfl, rfl⟩
    · split
      · exact sameArchive_erase c _ _
      · exact ⟨rfl, rfl, rfl, rfl⟩
  | recordDisplay key facts => exact sameArchive_recordDisplay c _ _
  | recordEntry facts stamp =>
    show SameArchive c (c.recordEntry facts stamp).1
    rw [recordEntry]
    dsimp only
    split
    · exact sameArchive_recordDisplay c.mint _ _
    · exact sameArchive_recordDisplay (c.mint.addStatistics _) _ _
  | recordAnnouncedDeliveries id values =>
    show SameArchive c (c.recordAnnouncedDeliveries id values)
    rw [recordAnnouncedDeliveries]
    split_ifs
    · exact ⟨rfl, rfl, rfl, rfl⟩
    · split <;> exact ⟨rfl, rfl, rfl, rfl⟩
  | pruneOldToolResults protectChars minimum retained =>
    show SameArchive c (c.pruneOldToolResults protectChars minimum retained).1
    rw [pruneOldToolResults]
    dsimp only
    split_ifs <;> exact ⟨rfl, rfl, rfl, rfl⟩

omit [DoubleSum] in
/-- What was restored is where the accounts begin. -/
theorem archived_restore {messages archive display : Json} {kinds : List MessageKind}
    {dropped : Int} {c : Conversation}
    (h : restore messages kinds archive dropped display = some c) :
    Archived c { base := c.archive, baseDropped := c.droppedSegments } := by
  unfold restore at h
  split at h
  · split_ifs at h
    obtain ⟨⟨ids, facts, next⟩, -, rfl⟩ := Option.map_eq_some_iff.mp h
    refine ⟨rfl, rfl, 0, Nat.zero_le _, ?_, ?_⟩
    · exact (List.append_nil _).symm
    · simp [ArchiveLog.refused]
  · exact absurd h (by simp)

/-- **One step** keeps the accounts. -/
theorem Archived.step {s : Conversation × ArchiveLog} (h : Archived s.1 s.2)
    (step : ConversationStep) : Archived (loggedStep s step).1 (loggedStep s step).2 := by
  obtain ⟨c, log⟩ := s
  by_cases hleaves : LeavesArchive step
  · show Archived (c.step step) (log.note c step)
    rw [note_of_leavesArchive log c hleaves]
    exact h.congr (sameArchive_step c hleaves)
  · cases step with
    | reset baseline => exact ⟨rfl, rfl, 0, Nat.zero_le _, rfl, rfl⟩
    | restore messages kinds archive dropped display =>
      show Archived ((restore messages kinds archive dropped display).getD c) _
      rcases hrestore : restore messages kinds archive dropped display with - | c'
      · show Archived c (log.note c (.restore messages kinds archive dropped display))
        rw [ArchiveLog.note, hrestore]
        exact h
      · show Archived c' (log.note c (.restore messages kinds archive dropped display))
        rw [ArchiveLog.note, hrestore]
        exact archived_restore hrestore
    | archiveRange reason first last turn cap =>
      show Archived (c.archiveRange reason first last turn cap).1 _
      rw [archiveRange_eq]
      exact h.addOffer _
    | archiveTurn turnStart turn cap =>
      show Archived (c.archiveTurn turnStart turn cap)
        { log with offers := log.offers ++ (c.offered (.archiveTurn turnStart turn cap)).toList }
      rw [archiveTurn, offered]
      split_ifs
      · exact h.addOffer none
      · rw [archiveRange_eq]
        exact h.addOffer _
    | archiveAll reason baselineSize turn cap =>
      show Archived (c.archiveAll reason baselineSize turn cap) _
      rw [archiveAll, archiveRange_eq]
      exact h.addOffer _
    | _ => exact absurd trivial hleaves

/-- **The archive's accounts.**  Over every run of a conversation's mutators
from a fresh one: its text is the dump of the archive and two bytes longer
than the count; the archive is what was restored and taken since but for the
oldest ones, and those and the refused ones are what the count of dropped
segments grew by; and a segment that is taken next leaves the count within
its cap. -/
theorem archive_accounts (steps : List ConversationStep) :
    let s := steps.foldl loggedStep ({}, {})
    s.1.archiveText = Json.dump (.arr s.1.archive) ∧
      (s.1.archiveText.length : Int) = s.1.archiveBytes + 2 ∧
      (∃ expired : Nat, expired ≤ (s.2.base ++ s.2.taken).length ∧
        s.1.archive = (s.2.base ++ s.2.taken).drop expired ∧
        s.1.droppedSegments = s.2.baseDropped + s.2.refused + expired) ∧
      ∀ segment cap, (s.1.addArchiveSegment segment cap).2 = true →
        (s.1.addArchiveSegment segment cap).1.archiveBytes ≤ cap := by
  have hall : ∀ (steps : List ConversationStep) (s : Conversation × ArchiveLog),
      Archived s.1 s.2 → Archived (steps.foldl loggedStep s).1 (steps.foldl loggedStep s).2 := by
    intro steps
    induction steps with
    | nil => exact fun s h => h
    | cons step steps ih => exact fun s h => ih _ (h.step step)
  have h := hall steps ({}, {}) ⟨rfl, rfl, 0, Nat.zero_le _, rfl, rfl⟩
  exact ⟨h.archiveText_eq, h.length_archiveText, h.newest, fun _ _ => h.bytes_le_cap⟩

end Steps

end Conversation

end UAgent
