/-
UAgent/Agent/CompactionSwap.lean

What a compaction leaves: a conversation that is smaller, whose messages are
the system prompt, the runtime context, the skills and words of the user that
are kept and the summary, under distinct ids, and whose history is in the
newest segment of the archive unless the archive counts it as dropped.

The ids are distinct because what is new is numbered from the counter on,
which is above every id a kept message can have (`Renewed`).
-/
import UAgent.Agent.ArchiveAccounts
import UAgent.Agent.CompactionKept
import UAgent.Agent.ConversationRestore
import UAgent.Agent.DuplicateResults

namespace UAgent

open Bytes Conversation

/-! ### Messages that go in -/

/-- A message with its kind. -/
def saying (row : ConversationRow) : Json × MessageKind := (row.message, row.kind)

theorem normalizeRole_harnessMessage {kind : MessageKind} (h : kind.role = some (lit "user"))
    (content : Bytes) : normalizeRole (harnessMessage content) kind = userMessage content := by
  rw [normalizeRole_of_role h]
  rfl

theorem normalizeRole_userMessage {kind : MessageKind} (h : kind.role = some (lit "user"))
    (content : Bytes) : normalizeRole (userMessage content) kind = userMessage content := by
  rw [normalizeRole_of_role h]
  rfl

/-- A message that goes in is the last row; beside the rows only the counter
and what is shown change. -/
theorem frame_pushWithDisplayId (c : Conversation) (message : Json) (kind : MessageKind)
    (id : UInt64) (stamp : Bytes) :
    c.pushWithDisplayId message kind id stamp =
      { c.appendRow ⟨normalizeRole message kind, kind, id⟩ with
        displayFacts := (c.pushWithDisplayId message kind id stamp).displayFacts
        factBytes := (c.pushWithDisplayId message kind id stamp).factBytes
        displayBytes := (c.pushWithDisplayId message kind id stamp).displayBytes } := by
  rw [pushWithDisplayId]
  split_ifs
  · exact frame_recordDisplay _ _ _
  · rfl

theorem rows_pushWithDisplayId (c : Conversation) (message : Json) (kind : MessageKind)
    (id : UInt64) (stamp : Bytes) :
    (c.pushWithDisplayId message kind id stamp).rows =
      c.rows ++ [⟨normalizeRole message kind, kind, id⟩] := by
  rw [frame_pushWithDisplayId]
  rfl

theorem next_pushWithDisplayId (c : Conversation) (message : Json) (kind : MessageKind)
    (id : UInt64) (stamp : Bytes) :
    (c.pushWithDisplayId message kind id stamp).nextDisplayId =
      if c.nextDisplayId ≤ id then id + 1 else c.nextDisplayId := by
  rw [frame_pushWithDisplayId]
  rfl

theorem next_push (c : Conversation) (message : Json) (kind : MessageKind) (stamp : Bytes) :
    (c.push message kind stamp).nextDisplayId = c.nextDisplayId + 1 := by
  rw [push, next_pushWithDisplayId]
  show (if c.nextDisplayId + 1 ≤ c.nextDisplayId then _ else c.nextDisplayId + 1) = _
  exact ite_self _

namespace CompactIo

variable (io : CompactIo)

theorem saying_pushAll (kind : MessageKind) (c : Conversation) (messages : List Json) :
    (io.pushAll kind c messages).rows.map saying =
      c.rows.map saying ++ messages.map fun message => (normalizeRole message kind, kind) := by
  induction messages generalizing c with
  | nil => exact (List.append_nil _).symm
  | cons message messages ih =>
    show (io.pushAll kind (c.push message kind io.stamp) messages).rows.map saying = _
    rw [ih, rows_push, List.map_append, List.append_assoc]
    rfl

/-- What the user said goes in under the ids it had. -/
theorem rows_pushUsers (c : Conversation) {users : List (Bytes × UInt64)}
    (h : ∀ user ∈ users, user.2 ≠ 0) :
    (io.pushUsers c users).rows =
      c.rows ++ users.map fun user => ⟨userMessage user.1, .user, user.2⟩ := by
  induction users generalizing c with
  | nil => exact (List.append_nil _).symm
  | cons user users ih =>
    have hrow : (c.pushWithDisplayId (userMessage user.1) .user user.2 io.stamp).rows =
        c.rows ++ [⟨userMessage user.1, .user, user.2⟩] := by
      rw [rows_pushWithDisplayId, normalizeRole_userMessage rfl]
    show (io.pushUsers (if user.2 ≠ 0 then _ else _) users).rows = _
    rw [if_pos (h user List.mem_cons_self), ih _ fun u hu => h u (List.mem_cons_of_mem _ hu), hrow,
      List.append_assoc]
    rfl

end CompactIo

/-! ### Fresh ids -/

/-- A conversation that has been begun anew where the counter stood at `old`,
`minted` ids ago. -/
structure Renewed [DoubleText] (old : UInt64) (c : Conversation) (minted : Nat) : Prop where
  sound : c.Sound
  next : c.nextDisplayId.toNat = old.toNat + minted
  fresh : ∀ id ∈ c.displayIds, old ≤ id

section Renewed

variable [DoubleText] {old : UInt64} {c : Conversation} {minted : Nat}

theorem Renewed.push (h : Renewed old c minted) (hfits : old.toNat + minted + 1 < 2 ^ 64)
    (message : Json) (kind : MessageKind) (stamp : Bytes) :
    Renewed old (c.push message kind stamp) (minted + 1) where
  sound := h.sound.push message kind stamp (by rw [h.next]; exact hfits)
  next := by
    have hnext := h.next
    rw [next_push, toNat_add_one_of_lt (by omega)]
    omega
  fresh id hid := by
    have hnext := h.next
    rw [displayIds, rows_push, List.map_append] at hid
    rcases List.mem_append.mp hid with hid | hid
    · exact h.fresh id hid
    · obtain rfl : id = c.nextDisplayId := List.mem_singleton.mp hid
      rw [UInt64.le_iff_toNat_le]
      omega

theorem Renewed.pushAll (h : Renewed old c minted) (io : CompactIo) (kind : MessageKind)
    (messages : List Json) (hfits : old.toNat + minted + messages.length < 2 ^ 64) :
    Renewed old (io.pushAll kind c messages) (minted + messages.length) := by
  induction messages generalizing c minted with
  | nil => exact h
  | cons message messages ih =>
    rw [List.length_cons] at hfits ⊢
    have hfirst := h.push (by omega) message kind io.stamp
    rw [show minted + (messages.length + 1) = minted + 1 + messages.length by omega]
    exact ih hfirst (by omega)

/-- A baseline of one message takes the first id. -/
theorem renewed_resetHistory (h : c.Sound) (entry : Json × MessageKind)
    (hfits : c.nextDisplayId.toNat + 1 < 2 ^ 64) :
    Renewed c.nextDisplayId (c.resetHistory [entry]) 1 where
  sound := h.resetHistory [entry] hfits
  next := toNat_add_one_of_lt hfits
  fresh id hid := by
    obtain rfl : id = c.nextDisplayId := List.mem_singleton.mp hid
    exact UInt64.le_refl _

/-- Ids from before are not in the way of what is there. -/
theorem Renewed.pushUsers (h : Renewed old c minted) (io : CompactIo)
    {users : List (Bytes × UInt64)} (hnodup : (users.map Prod.snd).Nodup)
    (hpos : ∀ user ∈ users, user.2 ≠ 0) (hbelow : ∀ user ∈ users, user.2 < old) :
    (io.pushUsers c users).Sound ∧ (io.pushUsers c users).nextDisplayId = c.nextDisplayId := by
  have hlow : ∀ user ∈ users, ¬c.nextDisplayId ≤ user.2 := by
    intro user huser hle
    have hnext := h.next
    have hlt := UInt64.lt_iff_toNat_lt.mp (hbelow user huser)
    rw [UInt64.le_iff_toNat_le] at hle
    omega
  have hnew : ∀ user ∈ users, user.2 ∉ c.displayIds := fun user huser hmem =>
    UInt64.not_le.mpr (hbelow user huser) (h.fresh _ hmem)
  have hsound := h.sound
  clear h hbelow
  induction users generalizing c with
  | nil => exact ⟨hsound, rfl⟩
  | cons user users ih =>
    obtain ⟨hfirst, hnodup⟩ := List.nodup_cons.mp (List.map_cons ▸ hnodup)
    have hmem : user ∈ user :: users := List.mem_cons_self
    have hstep : io.pushUsers c (user :: users) =
        io.pushUsers (c.pushWithDisplayId (userMessage user.1) .user user.2 io.stamp) users := by
      show io.pushUsers (if user.2 ≠ 0 then _ else _) users = _
      rw [if_pos (hpos user hmem)]
    have hsame : (c.pushWithDisplayId (userMessage user.1) .user user.2 io.stamp).nextDisplayId =
        c.nextDisplayId := by
      rw [next_pushWithDisplayId, if_neg (hlow user hmem)]
    have hbound : user.2.toNat + 1 < 2 ^ 64 := by
      have hlt := hlow user hmem
      rw [UInt64.not_le, UInt64.lt_iff_toNat_lt] at hlt
      have := c.nextDisplayId.toNat_lt
      omega
    have hpushed := hsound.pushWithDisplayId (userMessage user.1) .user io.stamp
      (hnew user hmem) (hpos user hmem) hbound
    rw [hstep, ← hsame]
    refine ih hnodup (fun u hu => hpos u (List.mem_cons_of_mem _ hu)) (fun u hu => ?_)
      (fun u hu => ?_) hpushed
    · rw [hsame]
      exact hlow u (List.mem_cons_of_mem _ hu)
    · rw [displayIds, rows_pushWithDisplayId, List.map_append, List.mem_append, not_or]
      refine ⟨hnew u (List.mem_cons_of_mem _ hu), fun hid => hfirst ?_⟩
      have hsameId : u.2 = user.2 := List.mem_singleton.mp hid
      rw [← hsameId]
      exact List.mem_map_of_mem hu

end Renewed

/-! ### The size -/

theorem saturatingAdd_mono {a a' b b' : Nat} (h : a ≤ a') (h' : b ≤ b') :
    saturatingAdd a b ≤ saturatingAdd a' b' := min_le_min (Nat.add_le_add h h') le_rfl

/-- Messages that are no larger one by one are no larger together. -/
theorem jsonEstimatedBytes_arr_le {a b : List Json}
    (h : List.Forall₂ (fun x y => jsonEstimatedBytes x ≤ jsonEstimatedBytes y) a b) :
    jsonEstimatedBytes (.arr a) ≤ jsonEstimatedBytes (.arr b) := by
  have hsum : (a.map jsonEstimatedBytes).sum ≤ (b.map jsonEstimatedBytes).sum := by
    induction h with
    | nil => exact le_rfl
    | cons hhead _ ih =>
      rw [List.map_cons, List.map_cons, List.sum_cons, List.sum_cons]
      exact Nat.add_le_add hhead ih
  rw [jsonEstimatedBytes, jsonEstimatedBytes, estimatedItems_eq a (by decide),
    estimatedItems_eq b (by decide)]
  exact saturatingAdd_mono le_rfl hsum

/-- The harness speaks in a longer role than the user. -/
theorem jsonEstimatedBytes_userMessage_le (content : Bytes) :
    jsonEstimatedBytes (userMessage content) ≤ jsonEstimatedBytes (harnessMessage content) := by
  have hroles : ∀ role, jsonEstimatedBytes
      (.obj [(lit "content", .str content), (lit "role", .str role)]) =
        saturatingAdd (saturatingAdd (estimatedFields 16 [(lit "content", .str content)])
          (lit "role").length) (saturatingAdd role.length 2) := fun role => by
    simp only [jsonEstimatedBytes, estimatedFields]
  show jsonEstimatedBytes (.obj [(lit "content", .str content), (lit "role", .str (lit "user"))]) ≤
    jsonEstimatedBytes (.obj [(lit "content", .str content), (lit "role", .str (lit "system"))])
  rw [hroles, hroles]
  exact saturatingAdd_mono le_rfl (saturatingAdd_mono (by decide) le_rfl)

/-! ### The archive -/

theorem Conversation.SameArchive.trans {a b c : Conversation} (h : SameArchive a b)
    (h' : SameArchive b c) : SameArchive a c :=
  ⟨h'.1.trans h.1, h'.2.1.trans h.2.1, h'.2.2.1.trans h.2.2.1, h'.2.2.2.trans h.2.2.2⟩

/-- A segment that holds rows: their messages, kinds and ids. -/
structure HoldsRows (segment : Json) (rows : List ConversationRow) : Prop where
  messages : jsonArray segment (lit "messages") = some (rows.map (·.message))
  kinds : jsonArray segment (lit "message_kinds") =
    some (rows.map fun row => .str (messageKindName row.kind))
  ids : jsonArray segment (lit "display_ids") = some (rows.map fun row => .uint row.id)

/-- Rows are in the newest segment of the archive, or the archive counts one
more segment as dropped. -/
def ArchivedOrDropped (rows : List ConversationRow) (c after : Conversation) : Prop :=
  c.droppedSegments < after.droppedSegments ∨
    ∃ segment, after.archive.getLast? = some segment ∧ HoldsRows segment rows

theorem archivedOrDropped_archiveAll [DoubleText] {c : Conversation} {first : Nat}
    (h : c.rows.drop first ≠ []) (reason : Bytes) (turn : Int64) (cap : Int) :
    ArchivedOrDropped (c.rows.drop first) c (c.archiveAll reason first turn cap) := by
  have hsaved : (c.rows.take c.rows.length).drop first = c.rows.drop first := by
    rw [List.take_length]
  rw [archiveAll, archiveRange, hsaved, if_neg h, addArchiveSegment]
  split_ifs with hout
  · exact .inl (Int.lt_succ _)
  · refine .inr ⟨_, List.getLast?_concat, ?_⟩
    exact ⟨rfl, rfl, rfl⟩

theorem sameArchive_pushAll (io : CompactIo) (kind : MessageKind) (c : Conversation)
    (messages : List Json) : SameArchive c (io.pushAll kind c messages) := by
  induction messages generalizing c with
  | nil => exact ⟨rfl, rfl, rfl, rfl⟩
  | cons message messages ih =>
    exact (sameArchive_pushWithDisplayId c.mint message kind _ io.stamp).trans (ih _)

theorem sameArchive_pushUsers (io : CompactIo) (c : Conversation)
    (users : List (Bytes × UInt64)) : SameArchive c (io.pushUsers c users) := by
  induction users generalizing c with
  | nil => exact ⟨rfl, rfl, rfl, rfl⟩
  | cons user users ih =>
    refine SameArchive.trans ?_ (ih _)
    show SameArchive c (if user.2 ≠ 0 then _ else _)
    split_ifs
    · exact sameArchive_pushWithDisplayId c (userMessage user.1) .user user.2 io.stamp
    · exact sameArchive_pushWithDisplayId c.mint (userMessage user.1) .user _ io.stamp

namespace CompactIo

variable (io : CompactIo) (c : Conversation)

theorem sameArchive_swapped [DoubleText] (content : Bytes) :
    SameArchive (io.archived c) (io.swapped c content) :=
  let fresh := (io.archived c).resetHistory [(sysMsg io.prompt, .system)]
  let informed := fresh.push (harnessMessage io.runtimeContext) .runtimeContext io.stamp
  let skilled := io.pushAll .internal informed (io.compactionSkillMessages c)
  have hinformed : SameArchive (io.archived c) informed :=
    sameArchive_pushWithDisplayId fresh.mint _ .runtimeContext _ io.stamp
  have hasked := (hinformed.trans (sameArchive_pushAll io .internal informed _)).trans
    (sameArchive_pushUsers io skilled (io.compactionUserMessages c))
  hasked.trans (sameArchive_pushWithDisplayId (io.pushUsers skilled _).mint _ .internal _ io.stamp)

/-! ### What is live -/

/-- What a compacted conversation says: the system message, the runtime
context, the skills, the user's words and the summary. -/
def liveSayings (content : Bytes) : List (Json × MessageKind) :=
  [(sysMsg io.prompt, .system), (userMessage io.runtimeContext, .runtimeContext)] ++
    (io.compactionSkills c).map (fun skill => (userMessage (skillWords skill), .internal)) ++
    (io.compactionUserMessages c).map (fun user => (userMessage user.1, .user)) ++
    [(summary content, .internal)]

/-- What the user said, as it is scanned, behind the baseline. -/
theorem keepsNewest_compactionUserMessages :
    KeepsNewest io.userCap ((c.rows.drop baselineSize).filterMap scannedText)
      (io.compactionUserMessages c) :=
  keepsNewest_keepUsers (windowShare_pos io.ctxWindow 2 (by decide)) _

theorem keptSkills_compactionSkills :
    KeptSkills io.skillCap (c.rows.drop baselineSize) (io.compactionSkills c) := by
  have hloop := keptSkills_keepSkills (c.rows.drop baselineSize).reverse
    (keptSkills_nil io.skillCap) (Nat.zero_add _)
  exact KeptSkills.reverse hloop

variable {c}

/-- The ids of what is kept are those of rows, in their order. -/
theorem ids_compactionUserMessages :
    ((io.compactionUserMessages c).map Prod.snd).Sublist c.displayIds := by
  have hscan : (((c.rows.drop baselineSize).filterMap scannedText).map Prod.snd).Sublist
      c.displayIds := by
    refine List.Sublist.trans ?_ ((List.drop_sublist baselineSize c.rows).map _)
    induction c.rows.drop baselineSize with
    | nil => exact List.Sublist.slnil
    | cons row rows ih =>
      show List.Sublist _ (row.id :: rows.map (·.id))
      cases hsaid : scannedText row with
      | none =>
        rw [List.filterMap_cons_none hsaid]
        exact ih.cons _
      | some said =>
        have hid : said.2 = row.id := by
          unfold scannedText at hsaid
          split_ifs at hsaid
          obtain ⟨content, -, rfl⟩ := Option.map_eq_some_iff.mp hsaid
          rfl
        rw [List.filterMap_cons_some hsaid, ← hid]
        exact ih.cons_cons _
  rcases io.keepsNewest_compactionUserMessages c with ⟨hsuffix, -⟩ | ⟨newest, hlast, -, hcut⟩
  · exact (hsuffix.sublist.map Prod.snd).trans hscan
  · rw [hcut]
    refine List.Sublist.trans ?_ hscan
    exact List.singleton_sublist.mpr
      (List.mem_map.mpr ⟨newest, List.mem_of_getLast? hlast, rfl⟩)

/-- A kept message of the user has a row of the conversation, and its id. -/
theorem mem_rows_of_user {user : Bytes × UInt64} (huser : user ∈ io.compactionUserMessages c) :
    ∃ row ∈ c.rows, row.id = user.2 :=
  List.mem_map.mp (io.ids_compactionUserMessages.subset (List.mem_map_of_mem huser))

section Swapped

variable [DoubleText]

theorem sound_archived (h : c.Sound) : (io.archived c).Sound :=
  (h.pruneAttachments baselineSize io.route).archiveAll _ _ _ _

theorem next_addArchiveSegment (c : Conversation) (segment : Json) (cap : Int) :
    (c.addArchiveSegment segment cap).1.nextDisplayId = c.nextDisplayId := by
  rw [addArchiveSegment]
  split_ifs <;> rfl

theorem next_archiveAll (c : Conversation) (reason : Bytes) (first : Nat) (turn : Int64)
    (cap : Int) : (c.archiveAll reason first turn cap).nextDisplayId = c.nextDisplayId := by
  rw [archiveAll, archiveRange]
  split_ifs
  · rfl
  · exact next_addArchiveSegment _ _ _

theorem next_archived : (io.archived c).nextDisplayId = c.nextDisplayId :=
  next_archiveAll _ _ _ _ _

/-- The conversation before the user's words go in. -/
def skilled (c : Conversation) : Conversation :=
  io.pushAll .internal
    (((io.archived c).resetHistory [(sysMsg io.prompt, .system)]).push
      (harnessMessage io.runtimeContext) .runtimeContext io.stamp)
    (io.compactionSkillMessages c)

/-- All of it is under new ids. -/
theorem renewed_skilled (h : c.Sound)
    (hroom : c.nextDisplayId.toNat + c.rows.length + 3 < 2 ^ 64) :
    ∃ minted ≤ c.rows.length + 2, Renewed c.nextDisplayId (io.skilled c) minted := by
  have hcount := (io.keptSkills_compactionSkills c).count
  rw [List.length_drop] at hcount
  have hnew := io.next_archived (c := c)
  have hfresh := renewed_resetHistory (io.sound_archived h) (sysMsg io.prompt, .system)
    (by rw [hnew]; omega)
  rw [hnew] at hfresh
  have hinformed := hfresh.push (by omega) (harnessMessage io.runtimeContext) .runtimeContext
    io.stamp
  have hlen : (io.compactionSkillMessages c).length = (io.compactionSkills c).length :=
    List.length_map _
  exact ⟨_, by omega, hinformed.pushAll io .internal (io.compactionSkillMessages c) (by omega)⟩

theorem saying_skilled : (io.skilled c).rows.map saying =
    [(sysMsg io.prompt, .system), (userMessage io.runtimeContext, .runtimeContext)] ++
      (io.compactionSkills c).map fun skill => (userMessage (skillWords skill), .internal) := by
  rw [skilled, saying_pushAll, rows_push, compactionSkillMessages, List.map_map,
    normalizeRole_harnessMessage rfl]
  refine congrArg _ (List.map_congr_left fun skill _ => ?_)
  exact congrArg (·, MessageKind.internal) (normalizeRole_harnessMessage rfl _)

theorem rows_swapped (h : c.Sound) (content : Bytes) :
    ∃ id, (io.swapped c content).rows = (io.skilled c).rows ++
      (io.compactionUserMessages c).map (fun user => ⟨userMessage user.1, .user, user.2⟩) ++
      [⟨summary content, .internal, id⟩] := by
  have hpos : ∀ user ∈ io.compactionUserMessages c, user.2 ≠ 0 := by
    intro user huser
    obtain ⟨row, hrow, hid⟩ := io.mem_rows_of_user huser
    rw [← hid]
    exact h.rows.pos row hrow
  refine ⟨(io.pushUsers (io.skilled c) (io.compactionUserMessages c)).nextDisplayId, ?_⟩
  show ((io.pushUsers (io.skilled c) (io.compactionUserMessages c)).push (summary content)
    .internal io.stamp).rows = _
  rw [rows_push, rows_pushUsers io _ hpos, summary, normalizeRole_userMessage rfl]

theorem saying_swapped (h : c.Sound) (content : Bytes) :
    (io.swapped c content).rows.map saying = io.liveSayings c content := by
  obtain ⟨id, hrows⟩ := io.rows_swapped h content
  rw [hrows, List.map_append, List.map_append, saying_skilled, List.map_map]
  rfl

/-- The rows of the user are those that are kept, under their ids. -/
theorem users_swapped (h : c.Sound) (content : Bytes) :
    ((io.swapped c content).rows.filter fun row => row.kind = .user).map
        (fun row => (row.message, row.id)) =
      (io.compactionUserMessages c).map fun user => (userMessage user.1, user.2) := by
  have hother : ∀ row ∈ (io.skilled c).rows, ¬decide (row.kind = .user) = true := by
    intro row hrow huser
    have hsaying : saying row ∈ (io.skilled c).rows.map saying := List.mem_map_of_mem hrow
    have hkind : (saying row).2 = .user := of_decide_eq_true huser
    rw [saying_skilled] at hsaying
    rcases List.mem_append.mp hsaying with hfirst | hskill
    · rcases List.mem_pair.mp hfirst with heq | heq <;> rw [heq] at hkind <;> cases hkind
    · obtain ⟨skill, -, heq⟩ := List.mem_map.mp hskill
      rw [← heq] at hkind
      cases hkind
  have hall : ∀ users : List (Bytes × UInt64),
      ((users.map fun user => (⟨userMessage user.1, .user, user.2⟩ : ConversationRow)).filter
        fun row => row.kind = .user) = users.map fun user => ⟨userMessage user.1, .user, user.2⟩ :=
    fun users => List.filter_eq_self.mpr fun row hrow => by
      obtain ⟨user, -, rfl⟩ := List.mem_map.mp hrow
      rfl
  obtain ⟨id, hrows⟩ := io.rows_swapped h content
  rw [hrows, List.filter_append, List.filter_append, List.filter_eq_nil_iff.mpr hother, hall,
    List.nil_append, List.map_append, List.map_map]
  exact List.append_nil _

/-- The conversation is sound, with room for one more entry. -/
theorem sound_swapped (h : c.Sound) (hroom : c.nextDisplayId.toNat + c.rows.length + 3 < 2 ^ 64)
    (content : Bytes) : (io.swapped c content).Sound := by
  obtain ⟨minted, hle, hskilled⟩ := io.renewed_skilled h hroom
  have hids := io.ids_compactionUserMessages (c := c)
  obtain ⟨hsound, hnext⟩ := hskilled.pushUsers io (h.rows.nodup.sublist hids)
    (fun user huser => by
      obtain ⟨row, hrow, hid⟩ := io.mem_rows_of_user huser
      rw [← hid]
      exact h.rows.pos row hrow)
    (fun user huser => by
      obtain ⟨row, hrow, hid⟩ := io.mem_rows_of_user huser
      rw [← hid]
      exact h.rows.below row hrow)
  refine hsound.push (summary content) .internal io.stamp ?_
  rw [hnext, hskilled.next]
  omega

/-- The rows behind the baseline are archived as pruning leaves them. -/
theorem archivedOrDropped_archived (hrows : 2 ≤ c.rows.length) :
    ArchivedOrDropped ((c.pruneAttachments baselineSize io.route).1.rows.drop baselineSize) c
      (io.archived c) := by
  refine archivedOrDropped_archiveAll ?_ _ _ _
  intro hnil
  have hlen := congrArg List.length hnil
  rw [List.length_drop, pruneAttachments, List.length_map, List.length_mapIdx, List.length_nil,
    baselineSize] at hlen
  omega

/-- What is live is no larger than what was measured. -/
theorem jsonEstimatedBytes_swapped_le (h : c.Sound) (content : Bytes) :
    jsonEstimatedBytes (.arr (io.swapped c content).messages) ≤
      jsonEstimatedBytes (.arr (io.replacement c content)) := by
  have hmessages : (io.swapped c content).messages = (io.liveSayings c content).map Prod.fst := by
    rw [← io.saying_swapped h content, List.map_map]
    rfl
  have hsame : ∀ messages : List Json,
      List.Forall₂ (fun x y => jsonEstimatedBytes x ≤ jsonEstimatedBytes y) messages messages :=
    fun messages => List.forall₂_same.mpr fun _ _ => le_rfl
  have hskills : List.Forall₂ (fun x y => jsonEstimatedBytes x ≤ jsonEstimatedBytes y)
      ((io.compactionSkills c).map fun skill => userMessage (skillWords skill))
      (io.compactionSkillMessages c) := by
    rw [compactionSkillMessages, List.forall₂_map_left_iff, List.forall₂_map_right_iff]
    exact List.forall₂_same.mpr fun skill _ => jsonEstimatedBytes_userMessage_le _
  rw [hmessages, liveSayings, replacement, List.map_append, List.map_append, List.map_append,
    List.map_map, List.map_map]
  refine jsonEstimatedBytes_arr_le ?_
  refine List.rel_append (List.rel_append (List.rel_append ?_ hskills) (hsame _)) (hsame _)
  exact .cons le_rfl (.cons (jsonEstimatedBytes_userMessage_le _) .nil)

end Swapped

end CompactIo

/-! ### Compacting -/

/-- What a compaction makes of a conversation: less of it, its history in the
archive or counted as dropped, and live only what was kept and the summary. -/
structure Compacted (io : CompactIo) (c : Conversation) (content : Bytes) (after : Conversation) :
    Prop where
  smaller : jsonEstimatedBytes (.arr after.messages) < jsonEstimatedBytes (.arr c.messages)
  live : after.rows.map saying = io.liveSayings c content
  distinct : after.displayIds.Nodup
  skills : KeptSkills io.skillCap (c.rows.drop baselineSize) (io.compactionSkills c)
  users : (after.rows.filter fun row => row.kind = .user).map (fun row => (row.message, row.id)) =
    (io.compactionUserMessages c).map fun user => (userMessage user.1, user.2)
  /-- each text is one the user said, under its id, in order; or a single one
  that is cut, being alone beyond the cap -/
  verbatim :
    (io.compactionUserMessages c).Sublist ((c.rows.drop baselineSize).filterMap saidText) ∨
      ∃ said ∈ (c.rows.drop baselineSize).filterMap saidText, io.userCap < said.1.length ∧
        io.compactionUserMessages c = [(headTail said.1 io.userCap, said.2)]
  within : ((io.compactionUserMessages c).map saidBytes).sum ≤ io.userCap
  newest : PlainUsers (c.rows.drop baselineSize) →
    KeepsNewest io.userCap ((c.rows.drop baselineSize).filterMap saidText)
      (io.compactionUserMessages c)
  archived : ArchivedOrDropped
    ((c.pruneAttachments baselineSize io.route).1.rows.drop baselineSize) c after

theorem KeepsNewest.within {cap : Nat} {said kept : List (Bytes × UInt64)}
    (h : KeepsNewest cap said kept) : (kept.map saidBytes).sum ≤ cap := by
  rcases h with ⟨-, -, hwithin, -⟩ | ⟨newest, -, -, rfl⟩
  · exact hwithin
  · rw [List.map_singleton, List.sum_singleton]
    exact length_headTail_le newest.1 cap

/-- What a call of the model leaves as it was: the messages, their kinds and
ids, the counter and the archive. -/
structure Unmoved (c after : Conversation) : Prop where
  rows : after.rows = c.rows
  next : after.nextDisplayId = c.nextDisplayId
  archive : SameArchive c after

theorem Unmoved.refl (c : Conversation) : Unmoved c c := ⟨rfl, rfl, rfl, rfl, rfl, rfl⟩

theorem Unmoved.trans {a b c : Conversation} (h : Unmoved a b) (h' : Unmoved b c) : Unmoved a c :=
  ⟨h'.rows.trans h.rows, h'.next.trans h.next, h.archive.trans h'.archive⟩

theorem unmoved_recordDisplay (c : Conversation) (key : Bytes) (facts : Json) :
    Unmoved c (c.recordDisplay key facts) := by
  refine ⟨?_, ?_, sameArchive_recordDisplay c key facts⟩
  · rw [frame_recordDisplay]
  · rw [frame_recordDisplay]

/-- What a compaction makes of a conversation does not depend on what the
calls recorded in it. -/
theorem Compacted.of_unmoved {io : CompactIo} {c told after : Conversation} (h : Unmoved c told)
    {content : Bytes} (hdone : Compacted io told content after) : Compacted io c content after := by
  obtain ⟨hrows, -, harchive⟩ := h
  obtain ⟨hsmaller, hlive, hdistinct, hskills, husers, hverbatim, hwithin, hnewest, harchived⟩ := hdone
  simp only [CompactIo.liveSayings, CompactIo.compactionSkills, CompactIo.compactionUserMessages,
    Conversation.messages, hrows] at hsmaller hlive hskills husers hverbatim hwithin hnewest
  rw [show (told.pruneAttachments baselineSize io.route).1.rows =
    (c.pruneAttachments baselineSize io.route).1.rows by
      rw [pruneAttachments, pruneAttachments, hrows]] at harchived
  refine ⟨hsmaller, hlive, hdistinct, hskills, husers, hverbatim, hwithin, hnewest, ?_⟩
  rcases harchived with hdropped | hsegment
  · exact .inl (harchive.2.2.2 ▸ hdropped)
  · exact .inr hsegment

section Compact

variable [DoubleSum]

theorem sameArchive_recordEntry (c : Conversation) (facts : Json) (stamp : Bytes) :
    SameArchive c (c.recordEntry facts stamp).1 := by
  rw [recordEntry]
  dsimp only
  split_ifs
  · exact sameArchive_recordDisplay c.mint _ _
  · exact sameArchive_recordDisplay (c.mint.addStatistics _) _ _

theorem unmoved_chatted (io : CompactIo) (c : Conversation) (call : CompactCall) :
    Unmoved c (io.chatted c call) := by
  unfold CompactIo.chatted
  dsimp only
  split_ifs
  · exact .refl c
  · exact ⟨rfl, rfl, rfl, rfl, rfl, rfl⟩
  · have htwice := (unmoved_recordDisplay c (lit "http-latest")
      (.ofFields [(lit "http", .arr call.httpExchanges)])).trans (unmoved_recordDisplay _ io.replyTo
        (.ofFields [(lit "http", .arr call.httpExchanges)]))
    exact ⟨htwice.rows, htwice.next, htwice.archive⟩
  · have honce := unmoved_recordDisplay c (lit "http-latest")
      (.ofFields [(lit "http", .arr call.httpExchanges)])
    exact ⟨honce.rows, honce.next, honce.archive⟩

theorem unmoved_told (io : CompactIo) (c : Conversation) : Unmoved c (io.told c) := by
  unfold CompactIo.told
  dsimp only
  split_ifs
  · exact (unmoved_chatted io c _).trans (unmoved_chatted io _ _)
  · exact unmoved_chatted io c _

variable [DoubleText]

theorem sound_chatted {io : CompactIo} {c : Conversation} (h : c.Sound) (call : CompactCall) :
    (io.chatted c call).Sound := by
  unfold CompactIo.chatted
  dsimp only
  split_ifs
  · exact h
  · exact h.addStatistics _
  · exact ((h.recordDisplay _ _).recordDisplay _ _).addStatistics _
  · exact (h.recordDisplay _ _).addStatistics _

theorem sound_told {io : CompactIo} {c : Conversation} (h : c.Sound) : (io.told c).Sound := by
  unfold CompactIo.told
  dsimp only
  split_ifs
  · exact sound_chatted (sound_chatted h _) _
  · exact sound_chatted h _

/-- The step: a compaction is given up, or the history gives way to a summary
that makes the conversation smaller. -/
theorem compact_cases (io : CompactIo) (c : Conversation) :
    (∃ after, Unmoved c after ∧ io.compact c = (after, false)) ∨
      ∃ facts, 2 ≤ c.rows.length ∧
        jsonEstimatedBytes (.arr (io.replacement c (io.answer c).content)) <
          jsonEstimatedBytes (.arr c.messages) ∧
        io.compact c =
          (((io.swapped (io.told c) (io.answer c).content).recordEntry facts io.stamp).1, true) := by
  rw [CompactIo.compact]
  by_cases hshort : c.rows.length < 2
  · exact .inl ⟨c, .refl c, if_pos hshort⟩
  · rw [if_neg hshort]
    dsimp only
    split_ifs with hgiven
    · exact .inl ⟨io.told c, unmoved_told io c, rfl⟩
    · obtain ⟨-, hgiven⟩ := not_or.mp hgiven
      obtain ⟨-, hvalid⟩ := not_or.mp hgiven
      refine .inr ⟨_, not_lt.mp hshort, ?_, rfl⟩
      rw [Bool.not_eq_true, Bool.or_eq_false_iff, decide_eq_false_iff_not] at hvalid
      exact not_le.mp hvalid.2

/-- The swap, with what was measured smaller. -/
theorem compacted_swapped (io : CompactIo) {c : Conversation} (h : c.Sound)
    (hroom : c.nextDisplayId.toNat + c.rows.length + 3 < 2 ^ 64) (hrows : 2 ≤ c.rows.length)
    {content : Bytes} (hsmaller : jsonEstimatedBytes (.arr (io.replacement c content)) <
      jsonEstimatedBytes (.arr c.messages)) (facts : Json) :
    Compacted io c content ((io.swapped c content).recordEntry facts io.stamp).1 := by
  have hsame := rows_recordEntry (io.swapped c content) facts io.stamp
  have hscan := io.keepsNewest_compactionUserMessages c
  refine ⟨?_, ?_, ?_, io.keptSkills_compactionSkills c, ?_, ?_, hscan.within, ?_, ?_⟩
  · rw [Conversation.messages, hsame]
    exact lt_of_le_of_lt (io.jsonEstimatedBytes_swapped_le h _) hsmaller
  · rw [hsame]
    exact io.saying_swapped h _
  · rw [displayIds, hsame]
    exact (io.sound_swapped h hroom _).rows.nodup
  · rw [hsame]
    exact io.users_swapped h _
  · -- The scan keeps a suffix of the texts, or the newest of them, cut.
    have hsaid := scannedText_sublist (c.rows.drop baselineSize)
    rcases hscan with ⟨hsuffix, -⟩ | ⟨newest, hlast, hbeyond, hcut⟩
    · exact .inl (hsuffix.sublist.trans hsaid)
    · exact .inr ⟨newest, hsaid.subset (List.mem_of_getLast? hlast), hbeyond, hcut⟩
  · intro hplain
    rw [← hplain.scannedText]
    exact hscan
  · -- Nothing that comes behind the archiving touches the archive.
    have harchive := (io.sameArchive_swapped c content).trans
      (sameArchive_recordEntry _ facts io.stamp)
    rcases io.archivedOrDropped_archived hrows with hdropped | ⟨segment, hlast, hholds⟩
    · refine .inl ?_
      rw [harchive.2.2.2]
      exact hdropped
    · refine .inr ⟨segment, ?_, hholds⟩
      rw [harchive.1]
      exact hlast

/-- A compaction that is given up leaves the messages, their kinds and ids, the
archive and the dropped count as they were, and one that is carried out makes
of the conversation what `Compacted` says. -/
theorem compact_spec (io : CompactIo) {c : Conversation} (h : c.Sound)
    (hroom : c.nextDisplayId.toNat + c.rows.length + 3 < 2 ^ 64) :
    ((io.compact c).2 = false →
        (io.compact c).1.rows = c.rows ∧ SameArchive c (io.compact c).1) ∧
      ((io.compact c).2 = true → Compacted io c (io.answer c).content (io.compact c).1) := by
  rcases compact_cases io c with ⟨after, hunmoved, hgiven⟩ | ⟨facts, hrows, hsmaller, hdone⟩
  · rw [hgiven]
    exact ⟨fun _ => ⟨hunmoved.rows, hunmoved.archive⟩,
      fun hfalse => absurd hfalse Bool.false_ne_true⟩
  · rw [hdone]
    refine ⟨fun htrue => absurd htrue.symm Bool.false_ne_true, fun _ => ?_⟩
    have htold := unmoved_told io c
    refine .of_unmoved htold (compacted_swapped io (sound_told h) ?_ ?_ ?_ facts)
    · rw [htold.next, htold.rows]
      exact hroom
    · rw [htold.rows]
      exact hrows
    · simpa only [CompactIo.replacement, CompactIo.compactionSkillMessages,
        CompactIo.compactionSkills, CompactIo.compactionUserMessages, Conversation.messages,
        htold.rows] using hsmaller

end Compact

section Picture

set_option maxRecDepth 8000

/-- A question that was answered, and one that is sent with a picture. -/
def pictureSteps : List ConversationStep :=
  [.reset [(sysMsg (lit "Be brief."), .system)],
    .push (userMessage (lit "What is a monad?")) .user [],
    .push (userMessage (List.replicate 100 0x61)) .assistant [],
    .push (.ofFields [(lit "role", .str (lit "user")), (lit "content", .arr [
      .ofFields [(lit "type", .str (lit "text")), (lit "text", .str (lit "And this one?"))],
      .ofFields [(lit "type", .str (lit "attachment")), (lit "path", .str (lit "a.png"))]])])
      .attachment []]

def pictureIo : CompactIo where
  prompt := lit "Be brief."
  runtimeContext := lit "[end of harness context]"
  chat := fun _ _ =>
    { result := { content := lit "Done." }, metrics := .ofFields [(lit "model_calls", .int 1)] }

/-- The conversation of `pictureSteps`. -/
@[reducible] def pictureAsked : Conversation :=
  pictureSteps.foldl (@step Json.bitsText zeroSum) {}

theorem sound_pictureAsked : @Sound Json.bitsText pictureAsked := by
  let _ := Json.bitsText
  let _ := zeroSum
  have hrun : Run step Conversation.Fits {} (pictureSteps.foldl step {}) := .of_allOk (by decide)
  exact hrun.invariant Sound.fresh sound_step

theorem compact_spec_picture :
    Compacted pictureIo pictureAsked (lit "Done.") (@CompactIo.compact pictureIo pictureAsked
      Json.bitsText zeroSum).1 :=
  (@compact_spec zeroSum Json.bitsText pictureIo pictureAsked sound_pictureAsked (by decide)).2
    (by decide)

/-- Every message that was live is in the newest segment, or the archive counts
one more segment as dropped. -/
@[reducible] def ArchivesLive (c after : Conversation) : Prop :=
  c.droppedSegments < after.droppedSegments ∨
    ∀ row ∈ c.rows, row.message ∈
      (after.archive.getLast?.bind fun segment => jsonArray segment (lit "messages")).getD []

/-- The newest message of the user stays live. -/
@[reducible] def KeepsLastUser (c after : Conversation) : Prop :=
  ∀ id ∈ ((c.rows.filter fun row => isUserMessage row.message row.kind).map (·.id)).getLast?,
    id ∈ after.displayIds

/-- What holds of every compaction that is carried out. -/
def Compacts (P : Conversation → Conversation → Prop) : Prop :=
  ∀ (_ : DoubleText) (_ : DoubleSum) (io : CompactIo) (c : Conversation), c.Sound →
    c.nextDisplayId.toNat + c.rows.length + 3 < 2 ^ 64 → (io.compact c).2 = true →
      P c (io.compact c).1

theorem Compacts.picture {P : Conversation → Conversation → Prop} (h : Compacts P) :
    P pictureAsked (@CompactIo.compact pictureIo pictureAsked Json.bitsText zeroSum).1 :=
  h Json.bitsText zeroSum pictureIo pictureAsked sound_pictureAsked (by decide) (by decide)

/-- The system message is live and is not archived, and a message sent with a
picture, though the newest of the user, is not kept. -/
theorem not_compacts_as_live : ¬Compacts ArchivesLive ∧ ¬Compacts KeepsLastUser := by
  constructor
  · intro hall
    exact absurd hall.picture (by decide)
  · intro hall
    exact absurd (hall.picture 4 (by decide)) (by decide)

end Picture

end UAgent
