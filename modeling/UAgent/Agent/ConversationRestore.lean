/-
UAgent/Agent/ConversationRestore.lean

Whether a conversation that was saved can be opened again.

Every mutator keeps the rows as `restore` wants them: normalized roles, and
ids that are distinct, not zero and below the next one.  The display facts
are bounded twice, and not by the same measure: `recordDisplay` lets the
sizes of the facts add up to 4 MiB, `restore` measures the object that holds
them, whose estimate is 16 bytes more.  `saved_reopens_iff` says that a saved
conversation opens exactly below both bounds.
-/
import UAgent.Agent.Conversation
import UAgent.Base.Run
import Mathlib.Data.List.Nodup
import Mathlib.Algebra.BigOperators.Group.List.Basic

namespace UAgent

open Bytes

/-! ### Normalized roles -/

theorem normalizeRole_of_role {kind : MessageKind} {role : Bytes} (h : kind.role = some role)
    (message : Json) : normalizeRole message kind = message.set (lit "role") (.str role) := by
  rw [normalizeRole, h]

theorem normalizeRole_of_none {kind : MessageKind} (h : kind.role = none) (message : Json) :
    normalizeRole message kind = message := by
  rw [normalizeRole, h]

@[simp] theorem normalizeRole_normalizeRole (message : Json) (kind : MessageKind) :
    normalizeRole (normalizeRole message kind) kind = normalizeRole message kind := by
  rcases h : kind.role with - | role
  · simp [normalizeRole_of_none h]
  · simp [normalizeRole_of_role h]

/-- A row whose message has the role of its kind. -/
def ConversationRow.Normalized (row : ConversationRow) : Prop :=
  normalizeRole row.message row.kind = row.message

instance (row : ConversationRow) : Decidable row.Normalized := by
  unfold ConversationRow.Normalized; infer_instance

/-- A message whose content is rewritten keeps its role. -/
theorem ConversationRow.Normalized.setContent {row : ConversationRow} (h : row.Normalized)
    (content : Json) : (Conversation.setContent content row).Normalized := by
  unfold Normalized Conversation.setContent at *
  rcases hrole : row.kind.role with - | role
  · exact normalizeRole_of_none hrole _
  · rw [normalizeRole_of_role hrole] at h ⊢
    exact Json.set_set_of_fixed h (by decide) _

/-- The role depends on the kind alone. -/
theorem ConversationRow.Normalized.of_role {row : ConversationRow} (h : row.Normalized)
    {kind : MessageKind} (hrole : kind.role = row.kind.role) :
    ({ row with kind := kind } : ConversationRow).Normalized := by
  unfold Normalized normalizeRole at *
  rw [hrole]
  exact h

/-! ### The rows of a conversation -/

/-- Rows as `restore` wants them. -/
structure RowsKept (rows : List ConversationRow) (next : UInt64) : Prop where
  normalized : ∀ row ∈ rows, row.Normalized
  nodup : (rows.map (·.id)).Nodup
  pos : ∀ row ∈ rows, row.id ≠ 0
  below : ∀ row ∈ rows, row.id < next

namespace RowsKept

variable {rows rows' : List ConversationRow} {next next' : UInt64}

theorem nil (next : UInt64) : RowsKept [] next :=
  ⟨by simp, by simp, by simp, by simp⟩

theorem mono (h : RowsKept rows next) (hle : next ≤ next') : RowsKept rows next' :=
  { h with below := fun row hrow => UInt64.lt_of_lt_of_le (h.below row hrow) hle }

theorem sublist (h : RowsKept rows next) (hsub : rows'.Sublist rows) : RowsKept rows' next where
  normalized row hrow := h.normalized row (hsub.subset hrow)
  nodup := h.nodup.sublist (hsub.map _)
  pos row hrow := h.pos row (hsub.subset hrow)
  below row hrow := h.below row (hsub.subset hrow)

/-- Rows that are rewritten in place, each under its id. -/
theorem rewrite (h : RowsKept rows next) {f : Nat → ConversationRow → ConversationRow}
    (hrows : ∀ i, rows'[i]? = rows[i]?.map (f i)) (hid : ∀ i row, (f i row).id = row.id)
    (hnorm : ∀ i row, row.Normalized → (f i row).Normalized) : RowsKept rows' next := by
  have hids : rows'.map (·.id) = rows.map (·.id) := by
    refine List.ext_getElem? fun i => ?_
    rw [List.getElem?_map, List.getElem?_map, hrows, Option.map_map]
    exact congrArg (Option.map · rows[i]?) (funext fun row => hid i row)
  have hold : ∀ row ∈ rows', ∃ i, ∃ old ∈ rows, f i old = row := by
    intro row hrow
    obtain ⟨i, hi⟩ := List.mem_iff_getElem?.mp hrow
    rw [hrows] at hi
    obtain ⟨old, hold, hf⟩ := Option.map_eq_some_iff.mp hi
    exact ⟨i, old, List.mem_of_getElem? hold, hf⟩
  refine ⟨fun row hrow => ?_, hids ▸ h.nodup, fun row hrow => ?_, fun row hrow => ?_⟩
  · obtain ⟨i, old, hmem, rfl⟩ := hold row hrow
    exact hnorm i old (h.normalized old hmem)
  · obtain ⟨i, old, hmem, rfl⟩ := hold row hrow
    exact hid i old ▸ h.pos old hmem
  · obtain ⟨i, old, hmem, rfl⟩ := hold row hrow
    exact hid i old ▸ h.below old hmem

/-- One row is rewritten. -/
theorem modify (h : RowsKept rows next) {f : ConversationRow → ConversationRow} (index : Nat)
    (hid : ∀ row, (f row).id = row.id) (hnorm : ∀ row, row.Normalized → (f row).Normalized) :
    RowsKept (rows.modify index f) next := by
  refine h.rewrite (f := fun i => if index = i then f else id) (fun i => ?_) (fun i row => ?_)
    (fun i row hrow => ?_)
  · rw [List.getElem?_modify]
    split_ifs <;> rfl
  · split_ifs
    · exact hid row
    · rfl
  · split_ifs
    · exact hnorm row hrow
    · exact hrow

/-- A row is appended under an id that is not in use. -/
theorem append (h : RowsKept rows next) {row : ConversationRow} (hnorm : row.Normalized)
    (hnew : row.id ∉ rows.map (·.id)) (hpos : row.id ≠ 0) (hlt : row.id < next') (hle : next ≤ next') :
    RowsKept (rows ++ [row]) next' := by
  refine ⟨?_, ?_, ?_, ?_⟩
  · intro r hr
    rcases List.mem_append.mp hr with hr | hr
    · exact h.normalized r hr
    · exact List.mem_singleton.mp hr ▸ hnorm
  · rw [List.map_append, List.nodup_append]
    refine ⟨h.nodup, List.nodup_singleton _, ?_⟩
    rintro a ha b hb rfl
    obtain rfl : a = row.id := List.mem_singleton.mp hb
    exact hnew ha
  · intro r hr
    rcases List.mem_append.mp hr with hr | hr
    · exact h.pos r hr
    · exact List.mem_singleton.mp hr ▸ hpos
  · intro r hr
    rcases List.mem_append.mp hr with hr | hr
    · exact (h.mono hle).below r hr
    · exact List.mem_singleton.mp hr ▸ hlt

/-- The id that would be minted next is not in use. -/
theorem next_not_mem (h : RowsKept rows next) : next ∉ rows.map (·.id) := fun hmem => by
  obtain ⟨row, hrow, hid⟩ := List.mem_map.mp hmem
  exact absurd (h.below row hrow) (hid ▸ UInt64.lt_irrefl _)

end RowsKept

theorem toNat_add_one_of_lt {next : UInt64} (h : next.toNat + 1 < 2 ^ 64) :
    (next + 1).toNat = next.toNat + 1 := by
  rw [UInt64.toNat_add]
  exact Nat.mod_eq_of_lt h

theorem lt_add_one_of_lt {next : UInt64} (h : next.toNat + 1 < 2 ^ 64) : next < next + 1 := by
  rw [UInt64.lt_iff_toNat_lt, toNat_add_one_of_lt h]
  exact Nat.lt_succ_self _

namespace Conversation

/-- Messages numbered afresh take the ids from `next` on, one after another. -/
theorem id_of_mem_numberRows {baseline : List (Json × MessageKind)} {next : UInt64}
    (hfits : next.toNat + baseline.length < 2 ^ 64) {row : ConversationRow}
    (hrow : row ∈ numberRows next baseline) :
    next ≤ row.id ∧ row.id.toNat < next.toNat + baseline.length := by
  induction baseline generalizing next with
  | nil => cases hrow
  | cons entry baseline ih =>
    obtain ⟨message, kind⟩ := entry
    rw [List.length_cons] at hfits ⊢
    have hnext : (next + 1).toNat = next.toNat + 1 := toNat_add_one_of_lt (by omega)
    rcases List.mem_cons.mp hrow with rfl | hrow
    · exact ⟨UInt64.le_refl _, by show next.toNat < _; omega⟩
    · obtain ⟨hle, hlt⟩ := ih (by omega) hrow
      rw [UInt64.le_iff_toNat_le] at hle ⊢
      omega

theorem rowsKept_numberRows {baseline : List (Json × MessageKind)} {next : UInt64}
    (hpos : next ≠ 0) (hfits : next.toNat + baseline.length < 2 ^ 64) :
    RowsKept (numberRows next baseline) (next + UInt64.ofNat baseline.length) := by
  have hsum : (next + UInt64.ofNat baseline.length).toNat = next.toNat + baseline.length := by
    rw [UInt64.toNat_add, UInt64.toNat_ofNat', Nat.mod_eq_of_lt (show baseline.length < _ by omega)]
    exact Nat.mod_eq_of_lt hfits
  refine ⟨?_, ?_, ?_, ?_⟩
  · clear hfits hpos hsum
    induction baseline generalizing next with
    | nil => simp [numberRows]
    | cons entry baseline ih =>
      rintro row (_ | ⟨_, hrow⟩)
      · exact normalizeRole_normalizeRole _ _
      · exact ih row hrow
  · clear hpos hsum
    induction baseline generalizing next with
    | nil => simp [numberRows]
    | cons entry baseline ih =>
      rw [List.length_cons] at hfits
      have hnext : (next + 1).toNat = next.toNat + 1 := toNat_add_one_of_lt (by omega)
      rw [numberRows, List.map_cons, List.nodup_cons]
      refine ⟨fun hmem => ?_, ih (by omega)⟩
      obtain ⟨row, hrow, hid⟩ := List.mem_map.mp hmem
      obtain ⟨hle, -⟩ := id_of_mem_numberRows (by omega) hrow
      rw [UInt64.le_iff_toNat_le, hnext, hid] at hle
      exact absurd hle (Nat.not_succ_le_self _)
  · intro row hrow hzero
    obtain ⟨hle, -⟩ := id_of_mem_numberRows hfits hrow
    rw [hzero] at hle
    exact hpos (UInt64.le_antisymm hle UInt64.zero_le)
  · intro row hrow
    obtain ⟨-, hlt⟩ := id_of_mem_numberRows hfits hrow
    rw [UInt64.lt_iff_toNat_lt, hsum]
    exact hlt

/-- An attachment is sent as the user's, and so is what it becomes. -/
theorem role_prunedKind (first index : Nat) (kind : MessageKind) :
    (prunedKind first index kind).role = kind.role := by
  unfold prunedKind
  split_ifs with hatt hfirst
  · rw [hatt]; rfl
  · rw [hatt]; rfl
  · rfl

/-! ### What every mutator keeps -/

/-- The state of a conversation that `restore` can be asked about: rows with
distinct ids below the next, and the accounts of facts and archive true to
what they account for. -/
structure Sound [DoubleText] (c : Conversation) : Prop where
  rows : RowsKept c.rows c.nextDisplayId
  next : c.nextDisplayId ≠ 0
  facts : c.factBytes = c.displayFacts.map fun e => (e.1, factSize e.1 e.2)
  texts : c.archiveTexts = c.archive.map Json.dump
  dropped : 0 ≤ c.droppedSegments

namespace Sound

variable [DoubleText] {c : Conversation}

/-! #### Facts -/

theorem dropFact (h : c.Sound) (name : Bytes) (bytes : Nat) : (c.dropFact name bytes).Sound := by
  refine { h with facts := ?_ }
  show Assoc.erase name c.factBytes = _
  rw [h.facts]
  exact (Assoc.map_erase factSize name c.displayFacts).symm

theorem putFact (h : c.Sound) (key : Bytes) (facts : Json) : (c.putFact key facts).Sound := by
  refine { h with facts := ?_ }
  show Assoc.insert key (factSize key facts) c.factBytes = _
  rw [h.facts]
  exact (Assoc.map_insert factSize key facts c.displayFacts).symm

theorem evict (h : c.Sound) (key : Bytes) (rounds : Nat) :
    (Conversation.evict key rounds c).Sound := by
  induction rounds generalizing c with
  | zero => exact h
  | succ rounds ih =>
    rw [Conversation.evict]
    split_ifs
    · rcases c.victim key with - | ⟨name, bytes⟩
      · exact h
      · exact ih (h.dropFact name bytes)
    · exact h

theorem recordDisplay (h : c.Sound) (key : Bytes) (facts : Json) :
    (c.recordDisplay key facts).Sound := by
  unfold Conversation.recordDisplay
  dsimp only
  split_ifs
  · exact h
  · exact h
  · exact (h.putFact key _).evict key _

theorem recordAnnouncedDeliveries (h : c.Sound) (id : Bytes) (values : Json) :
    (c.recordAnnouncedDeliveries id values).Sound := by
  unfold Conversation.recordAnnouncedDeliveries
  split_ifs
  · exact h
  · split <;> exact { h with }

theorem addStatistics [DoubleSum] (h : c.Sound) (delta : Json) : (c.addStatistics delta).Sound :=
  { h with }

/-! #### Rows -/

theorem mint (h : c.Sound) (hfits : c.nextDisplayId.toNat + 1 < 2 ^ 64) : c.mint.Sound := by
  refine { h with rows := h.rows.mono (UInt64.le_of_lt (lt_add_one_of_lt hfits)), next := ?_ }
  intro hzero
  have hnat := toNat_add_one_of_lt hfits
  rw [show c.nextDisplayId + 1 = 0 from hzero] at hnat
  simp at hnat

theorem appendRow (h : c.Sound) {row : ConversationRow} (hnorm : row.Normalized)
    (hnew : row.id ∉ c.displayIds) (hpos : row.id ≠ 0) (hfits : row.id.toNat + 1 < 2 ^ 64) :
    (c.appendRow row).Sound := by
  have hlt := lt_add_one_of_lt hfits
  refine { h with rows := h.rows.append hnorm hnew hpos ?_ ?_, next := ?_ }
  · show row.id < if c.nextDisplayId ≤ row.id then row.id + 1 else c.nextDisplayId
    split_ifs with hle
    · exact hlt
    · exact UInt64.not_le.mp hle
  · show c.nextDisplayId ≤ if c.nextDisplayId ≤ row.id then row.id + 1 else c.nextDisplayId
    split_ifs with hle
    · exact UInt64.le_of_lt (UInt64.lt_of_le_of_lt hle hlt)
    · exact UInt64.le_refl _
  · show (if c.nextDisplayId ≤ row.id then row.id + 1 else c.nextDisplayId) ≠ 0
    split_ifs
    · intro hzero
      rw [hzero] at hlt
      exact absurd hlt UInt64.not_lt_zero
    · exact h.next

theorem pushWithDisplayId (h : c.Sound) (message : Json) (kind : MessageKind) {id : UInt64}
    (stamp : Bytes) (hnew : id ∉ c.displayIds) (hpos : id ≠ 0) (hfits : id.toNat + 1 < 2 ^ 64) :
    (c.pushWithDisplayId message kind id stamp).Sound := by
  have hrow : (c.appendRow ⟨normalizeRole message kind, kind, id⟩).Sound :=
    h.appendRow (normalizeRole_normalizeRole _ _) hnew hpos hfits
  unfold Conversation.pushWithDisplayId
  split_ifs
  · exact hrow.recordDisplay _ _
  · exact hrow

theorem push (h : c.Sound) (message : Json) (kind : MessageKind) (stamp : Bytes)
    (hfits : c.nextDisplayId.toNat + 1 < 2 ^ 64) : (c.push message kind stamp).Sound :=
  (h.mint hfits).pushWithDisplayId message kind stamp h.rows.next_not_mem h.next hfits

theorem resetHistory (h : c.Sound) (baseline : List (Json × MessageKind))
    (hfits : c.nextDisplayId.toNat + baseline.length < 2 ^ 64) : (c.resetHistory baseline).Sound := by
  refine { h with rows := rowsKept_numberRows h.next hfits, next := ?_ }
  show c.nextDisplayId + UInt64.ofNat baseline.length ≠ 0
  intro hzero
  have hnat := congrArg UInt64.toNat hzero
  rw [UInt64.toNat_add, UInt64.toNat_ofNat', Nat.mod_eq_of_lt (show baseline.length < _ by omega),
    Nat.mod_eq_of_lt hfits] at hnat
  exact h.next (UInt64.toNat_inj.mp (show c.nextDisplayId.toNat = 0 from
    (Nat.add_eq_zero_iff.mp hnat).1))

theorem fresh : ({} : Conversation).Sound :=
  ⟨RowsKept.nil _, by decide, rfl, rfl, le_refl _⟩

theorem set (h : c.Sound) (index : Nat) (message : Json) (kind : MessageKind) :
    (c.set index message kind).Sound := by
  unfold Conversation.set
  rcases hrow : c.rows[index]? with - | old
  · exact h
  · dsimp only
    split_ifs
    · exact h
    · refine { h with rows := ?_ }
      refine h.rows.rewrite (f := fun i row => if index = i then
        { row with message := normalizeRole message kind, kind := kind } else row) ?_ ?_ ?_
      · intro i
        show (c.rows.set index { old with message := normalizeRole message kind, kind := kind })[i]? =
          _
        rw [List.getElem?_set]
        split_ifs with hi hlen
        · subst hi; rw [hrow]; rfl
        · exact absurd (List.getElem?_eq_some_iff.mp hrow).1 (hi ▸ hlen)
        · simp
      · intro i row
        split_ifs <;> rfl
      · intro i row hold
        split_ifs
        · exact normalizeRole_normalizeRole _ _
        · exact hold

theorem refreshBaseline (h : c.Sound) {system : Json}
    (hsystem : normalizeRole system .system = system)
    (hfits : c.nextDisplayId.toNat + 1 < 2 ^ 64) : (c.refreshBaseline system).Sound := by
  unfold Conversation.refreshBaseline
  split_ifs with hnil
  · refine { h.mint hfits with rows := ?_ }
    exact (RowsKept.nil _).append hsystem (by simp) h.next (lt_add_one_of_lt hfits)
      (UInt64.le_refl _)
  · exact h.set 0 system .system

theorem erase (h : c.Sound) (first last : Nat) : (c.erase first last).Sound := by
  unfold Conversation.erase
  dsimp only
  split_ifs with hle
  · exact h
  · refine { h with rows := h.rows.sublist ?_ }
    -- What is kept is what stands before and after the erased range.
    have hdrop : (c.rows.drop (min last c.rows.length)).Sublist
        (c.rows.drop (min first c.rows.length)) := List.drop_sublist_drop_left _ (by omega)
    simpa using (List.Sublist.refl (c.rows.take (min first c.rows.length))).append hdrop

theorem truncateBeforeUserTurn (h : c.Sound) (turn : Int) :
    (c.truncateBeforeUserTurn turn).1.Sound := by
  unfold Conversation.truncateBeforeUserTurn
  split_ifs
  · exact h
  · split
    · exact h.erase _ _
    · exact h

theorem recordEntry [DoubleSum] (h : c.Sound) (facts : Json) (stamp : Bytes)
    (hfits : c.nextDisplayId.toNat + 1 < 2 ^ 64) : (c.recordEntry facts stamp).1.Sound := by
  unfold Conversation.recordEntry
  dsimp only
  split
  · exact (h.mint hfits).recordDisplay _ _
  · exact ((h.mint hfits).addStatistics _).recordDisplay _ _

/-! #### Pruning -/

theorem pruneOldToolResults (h : c.Sound) (protectChars minimum : Nat) (retained : List Bytes) :
    (c.pruneOldToolResults protectChars minimum retained).1.Sound := by
  unfold Conversation.pruneOldToolResults
  split_ifs
  · exact h
  · dsimp only
    split_ifs
    · exact h
    · generalize (((List.range c.rows.length).reverse.foldl
        (pruneStep c.rows protectChars retained) {}).candidates) = candidates
      have hrows : ∀ state : List ConversationRow × ToolTracePruneResult,
          RowsKept state.1 c.nextDisplayId →
          RowsKept (candidates.foldl replaceResult state).1 c.nextDisplayId := by
        induction candidates with
        | nil => exact fun _ hs => hs
        | cons candidate candidates ih =>
          exact fun state hs => ih _ (hs.modify _ (fun _ => rfl) fun row hrow => hrow.setContent _)
      exact { h with rows := hrows (c.rows, {}) h.rows }

theorem pruneAttachments (h : c.Sound) (first : Nat) (route : Bytes) :
    (c.pruneAttachments first route).1.Sound := by
  refine { h with rows := ?_ }
  refine h.rows.rewrite (f := fun i row => (pruneRow first route i row).1) ?_ ?_ ?_
  · intro i
    show ((c.rows.mapIdx (pruneRow first route)).map Prod.fst)[i]? = _
    rw [List.getElem?_map, List.getElem?_mapIdx, Option.map_map]
    rfl
  · intro i row
    unfold pruneRow
    split
    · rfl
    · dsimp only
      split_ifs <;> rfl
  · intro i row hrow
    unfold pruneRow
    split
    · exact hrow
    · dsimp only
      split_ifs
      · exact (hrow.setContent _).of_role (role_prunedKind first i row.kind)
      · exact hrow
      · exact (hrow.setContent _).of_role (role_prunedKind first i row.kind)

/-! #### The archive -/

theorem appendSegment (h : c.Sound) (segment : Json) (archiveCap : Int) :
    (c.appendSegment segment archiveCap).Sound := by
  refine { h with texts := ?_, dropped := ?_ }
  · show c.archiveTexts.drop _ ++ [_] = (c.archive.drop _ ++ [_]).map Json.dump
    rw [h.texts, List.map_append, List.map_drop]
    rfl
  · show 0 ≤ c.droppedSegments + ((c.expired segment.dump archiveCap).1 : Int)
    have := h.dropped
    omega

theorem addArchiveSegment (h : c.Sound) (segment : Json) (archiveCap : Int) :
    (c.addArchiveSegment segment archiveCap).1.Sound := by
  unfold Conversation.addArchiveSegment
  split_ifs
  · refine { h with dropped := ?_ }
    show 0 ≤ c.droppedSegments + 1
    have := h.dropped
    omega
  · exact h.appendSegment segment archiveCap

theorem archiveRange (h : c.Sound) (reason : Bytes) (first last : Nat) (turn : Int64)
    (archiveCap : Int) : (c.archiveRange reason first last turn archiveCap).1.Sound := by
  unfold Conversation.archiveRange
  dsimp only
  split_ifs
  · exact h
  · exact h.addArchiveSegment _ _

theorem archiveTurn (h : c.Sound) (turnStart : Nat) (turn : Int64) (archiveCap : Int) :
    (c.archiveTurn turnStart turn archiveCap).Sound := by
  unfold Conversation.archiveTurn
  split_ifs
  · exact h
  · exact h.archiveRange _ _ _ _ _

theorem archiveAll (h : c.Sound) (reason : Bytes) (baselineSize : Nat) (turn : Int64)
    (archiveCap : Int) : (c.archiveAll reason baselineSize turn archiveCap).Sound :=
  h.archiveRange _ _ _ _ _

end Sound

/-! ### What a restored conversation is -/

/-- Ids that `restore` takes: distinct, not zero and below the next. -/
structure IdsKept (ids : List UInt64) (next : UInt64) : Prop where
  nodup : ids.Nodup
  pos : ∀ id ∈ ids, id ≠ 0
  below : ∀ id ∈ ids, id < next

theorem IdsKept.append {seen : List UInt64} {next id : UInt64} (h : IdsKept seen next)
    (hid : ¬(id = 0 ∨ next ≤ id ∨ id ∈ seen)) : IdsKept (seen ++ [id]) next := by
  rw [not_or, not_or] at hid
  obtain ⟨hpos, hlt, hnew⟩ := hid
  refine ⟨?_, ?_, ?_⟩
  · rw [List.nodup_append]
    refine ⟨h.nodup, List.nodup_singleton id, ?_⟩
    rintro a ha b hb rfl
    obtain rfl : a = id := List.mem_singleton.mp hb
    exact hnew ha
  · intro a ha
    rcases List.mem_append.mp ha with ha | ha
    · exact h.pos a ha
    · exact List.mem_singleton.mp ha ▸ hpos
  · intro a ha
    rcases List.mem_append.mp ha with ha | ha
    · exact h.below a ha
    · exact List.mem_singleton.mp ha ▸ UInt64.not_le.mp hlt

/-- The ids read from a saved list are as they have to be. -/
theorem restoreIds_sound {next : UInt64} {saved : List Json} {seen ids : List UInt64}
    (h : restoreIds next seen saved = some ids) (hseen : IdsKept seen next) :
    IdsKept ids next ∧ ids.length = seen.length + saved.length := by
  induction saved generalizing seen with
  | nil =>
    obtain rfl : seen = ids := Option.some.inj h
    exact ⟨hseen, rfl⟩
  | cons j saved ih =>
    cases j with
    | uint id =>
      rw [restoreIds] at h
      split_ifs at h with hid
      obtain ⟨hkept, hlen⟩ := ih h (hseen.append hid)
      refine ⟨hkept, ?_⟩
      rw [hlen, List.length_append, List.length_singleton, List.length_cons]
      omega
    | _ => cases h

/-- Ids that are as they have to be are read back. -/
theorem restoreIds_of_kept {next : UInt64} (seen : List UInt64) {ids : List UInt64}
    (h : IdsKept (seen ++ ids) next) :
    restoreIds next seen (ids.map .uint) = some (seen ++ ids) := by
  induction ids generalizing seen with
  | nil => simp [restoreIds]
  | cons id ids ih =>
    have hid : id ∈ seen ++ id :: ids := by simp
    have hnew : id ∉ seen := fun hmem =>
      (List.nodup_append.mp h.nodup).2.2 id hmem id List.mem_cons_self rfl
    rw [List.map_cons, restoreIds, if_neg]
    · rw [ih (seen ++ [id]) (by simpa using h)]
      simp
    · rintro (hzero | hle | hmem)
      · exact h.pos id hid hzero
      · exact absurd (h.below id hid) (UInt64.not_lt.mpr hle)
      · exact hnew hmem

/-- Ids numbered afresh. -/
theorem idsKept_range {count : Nat} (hfits : count + 1 < 2 ^ 64) :
    IdsKept ((List.range count).map fun index => UInt64.ofNat (index + 1))
      (UInt64.ofNat (count + 1)) := by
  have hnat : ∀ n, n < count + 1 → (UInt64.ofNat (n + 1)).toNat = n + 1 := by
    intro n hn
    rw [UInt64.toNat_ofNat', Nat.mod_eq_of_lt (by omega)]
  refine ⟨?_, ?_, ?_⟩
  · refine List.Nodup.map_on (fun a ha b hb hab => ?_) List.nodup_range
    have hab := congrArg UInt64.toNat hab
    rw [hnat a (by rw [List.mem_range] at ha; omega),
      hnat b (by rw [List.mem_range] at hb; omega)] at hab
    omega
  · intro id hid hzero
    obtain ⟨n, hn, rfl⟩ := List.mem_map.mp hid
    have hzero := congrArg UInt64.toNat hzero
    rw [hnat n (by rw [List.mem_range] at hn; omega)] at hzero
    simp at hzero
  · intro id hid
    obtain ⟨n, hn, rfl⟩ := List.mem_map.mp hid
    rw [List.mem_range] at hn
    rw [UInt64.lt_iff_toNat_lt, hnat n (by omega), hnat count (by omega)]
    omega

theorem restoreDisplay_sound {count : Nat} {display : Json} {ids : List UInt64}
    {facts : List (Bytes × Json)} {next : UInt64}
    (h : restoreDisplay count display = some (ids, facts, next)) (hfits : count + 1 < 2 ^ 64) :
    IdsKept ids next ∧ ids.length = count ∧ next ≠ 0 := by
  unfold restoreDisplay at h
  split_ifs at h
  · simp only [Option.some.injEq, Prod.mk.injEq] at h
    obtain ⟨rfl, -, rfl⟩ := h
    refine ⟨idsKept_range hfits, by simp, fun hzero => ?_⟩
    have hzero := congrArg UInt64.toNat hzero
    rw [UInt64.toNat_ofNat', Nat.mod_eq_of_lt (by omega)] at hzero
    simp at hzero
  · split at h
    · dsimp only at h
      split_ifs at h with hbad
      rw [not_or, not_or, not_or, not_not] at hbad
      obtain ⟨found, hids, heq⟩ := Option.map_eq_some_iff.mp h
      simp only [Prod.mk.injEq] at heq
      obtain ⟨rfl, -, rfl⟩ := heq
      obtain ⟨hkept, hlen⟩ := restoreIds_sound hids ⟨List.nodup_nil, by simp, by simp⟩
      exact ⟨hkept, by rw [hlen, ← hbad.1]; simp, hbad.2.2.1⟩
    · cases h

/-- The rows `restore` builds carry the ids it read. -/
theorem ids_restoredRows {messages : List Json} {kinds : List MessageKind} {ids : List UInt64}
    (hkinds : messages.length = kinds.length) (hids : ids.length = messages.length) :
    (restoredRows messages kinds ids).map (·.id) = ids := by
  rw [restoredRows, List.map_map]
  exact List.map_snd_zip (by rw [List.length_zip]; omega)

/-- Taking the rows apart and putting them together again. -/
theorem restoredRows_eq {rows : List ConversationRow} (h : ∀ row ∈ rows, row.Normalized) :
    restoredRows (rows.map (·.message)) (rows.map (·.kind)) (rows.map (·.id)) = rows := by
  induction rows with
  | nil => rfl
  | cons row rows ih =>
    have hrow : normalizeRole row.message row.kind = row.message := h row List.mem_cons_self
    have hrest := ih fun r hr => h r (List.mem_cons_of_mem row hr)
    unfold restoredRows at hrest ⊢
    simp only [List.map_cons, List.zip_cons_cons]
    rw [hrest, hrow]

theorem restore_sound [DoubleText] {messages archive display : Json} {kinds : List MessageKind}
    {dropped : Int} {c : Conversation} (h : restore messages kinds archive dropped display = some c)
    (hfits : messages.items.length + 1 < 2 ^ 64) : c.Sound := by
  unfold restore at h
  split at h
  · rename_i messages archive
    split_ifs at h with hbad
    rw [not_or, not_not] at hbad
    obtain ⟨⟨ids, facts, next⟩, hdisplay, rfl⟩ := Option.map_eq_some_iff.mp h
    obtain ⟨hkept, hlen, hnext⟩ := restoreDisplay_sound hdisplay hfits
    have hids := ids_restoredRows hbad.2 hlen
    refine ⟨⟨?_, ?_, ?_, ?_⟩, hnext, rfl, rfl, le_max_left _ _⟩
    · intro row hrow
      obtain ⟨e, -, rfl⟩ := List.mem_map.mp hrow
      exact normalizeRole_normalizeRole _ _
    · exact hids.symm ▸ hkept.nodup
    · exact fun row hrow => hkept.pos _ (hids ▸ List.mem_map_of_mem hrow)
    · exact fun row hrow => hkept.below _ (hids ▸ List.mem_map_of_mem hrow)
  · cases h

/-! ### Saving and restoring -/

/-- What the facts count against the metadata budget, all together. -/
def factTotal (c : Conversation) : Nat := (c.factBytes.map Prod.snd).sum

/-- The metadata of `c` is below both bounds `restore` sets: the budget of the
facts less the 16 bytes of the object that holds them, and the largest id. -/
def Reopenable (c : Conversation) : Prop :=
  c.factTotal + 16 ≤ kDisplayBytes ∧ c.nextDisplayId < 0xffffffffffffffff - 1000000

instance (c : Conversation) : Decidable c.Reopenable := by
  unfold Reopenable; infer_instance

/-- What a session keeps of a conversation when it is saved and opened again. -/
structure SameSaved (c c' : Conversation) : Prop where
  messages : c'.messages = c.messages
  kinds : c'.kinds = c.kinds
  displayIds : c'.displayIds = c.displayIds
  displayFacts : c'.displayFacts = c.displayFacts
  archiveText : c'.archiveText = c.archiveText
  droppedSegments : c'.droppedSegments = c.droppedSegments
  nextDisplayId : c'.nextDisplayId = c.nextDisplayId

theorem jsonArray_ids_displayMetadata (c : Conversation) :
    jsonArray c.displayMetadata (lit "ids") = some (c.displayIds.map .uint) := rfl

theorem jsonObject_facts_displayMetadata (c : Conversation) :
    jsonObject c.displayMetadata (lit "facts") = some (.obj c.displayFacts) := rfl

theorem jsonValueUint64_next_displayMetadata (c : Conversation) :
    jsonValueUint64 c.displayMetadata (lit "next") 0 = c.nextDisplayId.toNat := by
  have hget : c.displayMetadata.get? (lit "next") = some (.uint c.nextDisplayId) := rfl
  have hle : (c.nextDisplayId.toNat : Int) ≤ 2 ^ 64 - 1 := by
    have := c.nextDisplayId.toNat_lt
    omega
  rw [jsonValueUint64, jsonValueInteger, hget]
  simp only [hle, if_true, Int.toNat_natCast]

section Reopen

variable [DoubleText] {c : Conversation}

/-- What is saved of `c`, restored into a fresh conversation. -/
def reopen (c : Conversation) : Option Conversation :=
  restore (.arr c.messages) c.kinds (.arr c.archive) c.droppedSegments c.displayMetadata

/-- The facts of a sound conversation are within what `restore` takes exactly
when their sizes leave room for the object that holds them. -/
theorem estimate_displayFacts_le_iff (h : c.Sound) :
    jsonEstimatedBytes (.obj c.displayFacts) ≤ kDisplayBytes ↔
      c.factTotal + 16 ≤ kDisplayBytes := by
  have htotal : c.factTotal =
      (c.displayFacts.map fun e => saturatingAdd (jsonEstimatedBytes e.2) e.1.length).sum := by
    rw [factTotal, h.facts, List.map_map]
    rfl
  rw [jsonEstimatedBytes, estimatedFields_le_iff _ (by decide) (by decide), htotal, Nat.add_comm]

/-- Reading the metadata of a sound conversation back. -/
theorem restoreDisplay_displayMetadata (h : c.Sound) :
    restoreDisplay c.messages.length c.displayMetadata =
      if c.Reopenable then some (c.displayIds, c.displayFacts, c.nextDisplayId) else none := by
  have hids : restoreIds c.nextDisplayId [] (c.displayIds.map .uint) = some c.displayIds := by
    refine restoreIds_of_kept [] ⟨h.rows.nodup, fun id hid => ?_, fun id hid => ?_⟩
    · obtain ⟨row, hrow, rfl⟩ := List.mem_map.mp hid
      exact h.rows.pos row hrow
    · obtain ⟨row, hrow, rfl⟩ := List.mem_map.mp hid
      exact h.rows.below row hrow
  have hlen : (c.displayIds.map Json.uint).length = c.messages.length := by
    simp [displayIds, messages]
  rw [restoreDisplay, if_neg (show ¬c.displayMetadata.isEmpty = true from Bool.false_ne_true),
    jsonArray_ids_displayMetadata, jsonObject_facts_displayMetadata]
  simp only [jsonValueUint64_next_displayMetadata, UInt64.ofNat_toNat, hids, Option.map_some]
  by_cases hopen : c.Reopenable
  · rw [if_pos hopen, if_neg]
    rintro (hbad | hfacts | hzero | hbound)
    · exact hbad hlen
    · exact absurd ((estimate_displayFacts_le_iff h).mpr hopen.1) (Nat.not_le.mpr hfacts)
    · exact h.next hzero
    · exact absurd hopen.2 (UInt64.not_lt.mpr hbound)
  · rw [if_neg hopen, if_pos]
    rcases not_and_or.mp hopen with hfacts | hbound
    · exact .inr (.inl (Nat.not_le.mp (mt (estimate_displayFacts_le_iff h).mp hfacts)))
    · exact .inr (.inr (.inr (UInt64.not_lt.mp hbound)))

theorem reopen_eq_none (h : c.Sound) (hopen : ¬c.Reopenable) : c.reopen = none := by
  rw [reopen, restore, restoreDisplay_displayMetadata h, if_neg hopen]
  split_ifs <;> rfl

/-- A saved conversation opens exactly below the two bounds, and is then the
one that was saved. -/
theorem reopen_iff (h : c.Sound) (hne : c.messages ≠ []) :
    (∃ c', c.reopen = some c' ∧ c.SameSaved c') ↔ c.Reopenable := by
  have hlen : c.messages.length = c.kinds.length := by simp [messages, kinds]
  by_cases hopen : c.Reopenable
  · refine iff_of_true ?_ hopen
    have hrows : restoredRows c.messages c.kinds c.displayIds = c.rows :=
      restoredRows_eq h.rows.normalized
    rw [reopen, restore, if_neg (by rw [not_or, not_not]; exact ⟨hne, hlen⟩),
      restoreDisplay_displayMetadata h, if_pos hopen]
    simp only [Option.map_some, hrows]
    refine ⟨_, rfl, rfl, rfl, rfl, rfl, ?_, ?_, rfl⟩
    · simp only [archiveText, h.texts]
    · exact max_eq_right h.dropped
  · refine iff_of_false ?_ hopen
    rw [reopen_eq_none h hopen]
    rintro ⟨c', hc', -⟩
    cases hc'

end Reopen

/-! ### Runs -/

/-- The mutators of a conversation, with what they are called with. -/
inductive ConversationStep
  | reset (baseline : List (Json × MessageKind))
  | restore (messages : Json) (kinds : List MessageKind) (archive : Json) (dropped : Int)
      (display : Json)
  | resetHistory (baseline : List (Json × MessageKind))
  | refreshBaseline (system : Json)
  | push (message : Json) (kind : MessageKind) (stamp : Bytes)
  | pushWithDisplayId (message : Json) (kind : MessageKind) (id : UInt64) (stamp : Bytes)
  | set (index : Nat) (message : Json) (kind : MessageKind)
  | erase (first last : Nat)
  | truncateBeforeUserTurn (turn : Int)
  | recordDisplay (key : Bytes) (facts : Json)
  | recordEntry (facts : Json) (stamp : Bytes)
  | addStatistics (delta : Json)
  | recordAnnouncedDeliveries (id : Bytes) (values : Json)
  | archiveRange (reason : Bytes) (first last : Nat) (turn : Int64) (archiveCap : Int)
  | archiveTurn (turnStart : Nat) (turn : Int64) (archiveCap : Int)
  | archiveAll (reason : Bytes) (baselineSize : Nat) (turn : Int64) (archiveCap : Int)
  | pruneAttachments (first : Nat) (route : Bytes)
  | pruneOldToolResults (protectChars minimumReclaimChars : Nat) (retainedTools : List Bytes)

/-- What a step is promised: a given id is not zero and not in use, a baseline
has the system role, and the 64-bit counter of ids does not wrap. -/
def Fits (c : Conversation) : ConversationStep → Prop
  | .reset baseline => baseline.length + 1 < 2 ^ 64
  | .restore messages _ _ _ _ => messages.items.length + 1 < 2 ^ 64
  | .resetHistory baseline => c.nextDisplayId.toNat + baseline.length < 2 ^ 64
  | .refreshBaseline system =>
    normalizeRole system .system = system ∧ c.nextDisplayId.toNat + 1 < 2 ^ 64
  | .push .. | .recordEntry .. => c.nextDisplayId.toNat + 1 < 2 ^ 64
  | .pushWithDisplayId _ _ id _ => id ∉ c.displayIds ∧ id ≠ 0 ∧ id.toNat + 1 < 2 ^ 64
  | _ => True

instance (c : Conversation) (step : ConversationStep) : Decidable (c.Fits step) := by
  cases step <;> unfold Fits <;> infer_instance

section Runs

variable [DoubleText] [DoubleSum]

/-- One call of a mutator.  A failed `restore` leaves the conversation as it
was. -/
def step (c : Conversation) : ConversationStep → Conversation
  | .reset baseline => reset baseline
  | .restore messages kinds archive dropped display =>
    (restore messages kinds archive dropped display).getD c
  | .resetHistory baseline => c.resetHistory baseline
  | .refreshBaseline system => c.refreshBaseline system
  | .push message kind stamp => c.push message kind stamp
  | .pushWithDisplayId message kind id stamp => c.pushWithDisplayId message kind id stamp
  | .set index message kind => c.set index message kind
  | .erase first last => c.erase first last
  | .truncateBeforeUserTurn turn => (c.truncateBeforeUserTurn turn).1
  | .recordDisplay key facts => c.recordDisplay key facts
  | .recordEntry facts stamp => (c.recordEntry facts stamp).1
  | .addStatistics delta => c.addStatistics delta
  | .recordAnnouncedDeliveries id values => c.recordAnnouncedDeliveries id values
  | .archiveRange reason first last turn cap => (c.archiveRange reason first last turn cap).1
  | .archiveTurn turnStart turn cap => c.archiveTurn turnStart turn cap
  | .archiveAll reason baselineSize turn cap => c.archiveAll reason baselineSize turn cap
  | .pruneAttachments first route => (c.pruneAttachments first route).1
  | .pruneOldToolResults protectChars minimum retained =>
    (c.pruneOldToolResults protectChars minimum retained).1

/-- Every mutator keeps a conversation sound. -/
theorem sound_step (c : Conversation) (s : ConversationStep) (h : c.Sound) (hfits : c.Fits s) :
    (c.step s).Sound := by
  cases s with
  | reset baseline =>
    refine Sound.fresh.resetHistory baseline ?_
    show 1 + baseline.length < 2 ^ 64
    rw [Nat.add_comm]
    exact hfits
  | restore messages kinds archive dropped display =>
    rw [step]
    rcases hr : restore messages kinds archive dropped display with - | c'
    · exact h
    · exact restore_sound hr hfits
  | resetHistory baseline => exact h.resetHistory baseline hfits
  | refreshBaseline system => exact h.refreshBaseline hfits.1 hfits.2
  | push message kind stamp => exact h.push message kind stamp hfits
  | pushWithDisplayId message kind id stamp =>
    exact h.pushWithDisplayId message kind stamp hfits.1 hfits.2.1 hfits.2.2
  | set index message kind => exact h.set index message kind
  | erase first last => exact h.erase first last
  | truncateBeforeUserTurn turn => exact h.truncateBeforeUserTurn turn
  | recordDisplay key facts => exact h.recordDisplay key facts
  | recordEntry facts stamp => exact h.recordEntry facts stamp hfits
  | addStatistics delta => exact h.addStatistics delta
  | recordAnnouncedDeliveries id values => exact h.recordAnnouncedDeliveries id values
  | archiveRange reason first last turn cap => exact h.archiveRange reason first last turn cap
  | archiveTurn turnStart turn cap => exact h.archiveTurn turnStart turn cap
  | archiveAll reason baselineSize turn cap => exact h.archiveAll reason baselineSize turn cap
  | pruneAttachments first route => exact h.pruneAttachments first route
  | pruneOldToolResults protectChars minimum retained =>
    exact h.pruneOldToolResults protectChars minimum retained

/-- **A saved conversation opens again**, as it was, exactly when its facts
leave 16 bytes of their budget and its ids the last million. -/
theorem saved_reopens_iff {c : Conversation} (h : Run step Fits {} c) (hne : c.messages ≠ []) :
    (∃ c', c.reopen = some c' ∧ c.SameSaved c') ↔ c.Reopenable :=
  reopen_iff (h.invariant Sound.fresh sound_step) hne

end Runs

/-- A conversation with a prompt and its answer. -/
def promptAndAnswer : List ConversationStep :=
  [.reset [(.obj [(lit "content", .str (lit "Be brief."))], .system)],
    .push (.obj [(lit "content", .str (lit "Hi"))]) .user (lit "09:00"),
    .push (.obj [(lit "content", .str (lit "Hello."))]) .assistant (lit "09:01")]

theorem saved_reopens_promptAndAnswer :
    ∃ c', @reopen Json.bitsText (promptAndAnswer.foldl (@step Json.bitsText zeroSum) {}) = some c' ∧
      SameSaved (promptAndAnswer.foldl (@step Json.bitsText zeroSum) {}) c' := by
  let _ := Json.bitsText
  let _ := zeroSum
  exact (saved_reopens_iff (.of_allOk (by decide)) (by decide)).mpr
    (by decide)

/-! ### Facts that fill their budget -/

section Full

/-- A fact under a new key, within all three bounds, evicts nothing. -/
theorem recordDisplay_new {c : Conversation} {key : Bytes} {facts : Json} (hkey : key ≠ [])
    (hobj : facts.isObject = true) (hnew : Assoc.lookup key c.displayFacts = none)
    (hsize : jsonEstimatedBytes facts ≤ kFactBytes) (hcount : c.displayFacts.length < kFactCount)
    (hbytes : c.displayBytes + factSize key facts ≤ kDisplayBytes) :
    c.recordDisplay key facts =
      { c with
        displayBytes := c.displayBytes + factSize key facts
        displayFacts := Assoc.insert key facts c.displayFacts
        factBytes := Assoc.insert key (factSize key facts) c.factBytes } := by
  have hmerged : c.mergedFacts key facts = facts := by rw [mergedFacts, hnew]
  have hput : c.putFact key facts =
      { c with
        displayBytes := c.displayBytes + factSize key facts
        displayFacts := Assoc.insert key facts c.displayFacts
        factBytes := Assoc.insert key (factSize key facts) c.factBytes } := by
    have hmax : kDisplayBytes ≤ sizeMax := by decide
    simp only [putFact, replacedBytes, hnew, Nat.min_zero, Nat.sub_zero]
    rw [saturatingAdd_of_le (le_trans hbytes hmax)]
  have hlen : (Assoc.insert key facts c.displayFacts).length = c.displayFacts.length + 1 :=
    (Assoc.insert_perm hnew facts).length_eq
  rw [recordDisplay, if_neg (by simp [hkey, hobj]), hmerged]
  simp only [hput, if_neg (Nat.not_lt.mpr hsize)]
  rw [hlen, evict, if_neg]
  rintro (hover | hover)
  · rw [hlen] at hover
    exact absurd hcount (Nat.not_lt.mpr (Nat.le_of_lt_succ hover))
  · exact absurd hbytes (Nat.not_le.mpr hover)

@[simp] theorem rows_evict (key : Bytes) (rounds : Nat) (c : Conversation) :
    (evict key rounds c).rows = c.rows := by
  induction rounds generalizing c with
  | zero => rfl
  | succ rounds ih =>
    rw [evict]
    split_ifs
    · rcases c.victim key with - | ⟨name, bytes⟩
      · rfl
      · exact ih _
    · rfl

/-- Recording facts leaves the messages alone. -/
@[simp] theorem rows_recordDisplay (c : Conversation) (key : Bytes) (facts : Json) :
    (c.recordDisplay key facts).rows = c.rows := by
  unfold recordDisplay
  dsimp only
  split_ifs
  · rfl
  · rfl
  · rw [rows_evict]
    rfl

/-- Recording an entry leaves the messages alone. -/
theorem rows_recordEntry [DoubleSum] (c : Conversation) (facts : Json) (stamp : Bytes) :
    (c.recordEntry facts stamp).1.rows = c.rows := by
  unfold recordEntry
  dsimp only
  split
  · exact rows_recordDisplay _ _ _
  · exact rows_recordDisplay _ _ _

variable [DoubleText] [DoubleSum]

theorem rows_foldl_recordDisplay (facts : Json) (keys : List Bytes) (c : Conversation) :
    ((keys.map (ConversationStep.recordDisplay · facts)).foldl step c).rows = c.rows := by
  induction keys generalizing c with
  | nil => rfl
  | cons key keys ih => exact (ih _).trans (rows_recordDisplay c key facts)

theorem allOk_recordDisplay (facts : Json) (keys : List Bytes) (c : Conversation) :
    Run.AllOk step Fits c (keys.map (ConversationStep.recordDisplay · facts)) := by
  induction keys generalizing c with
  | nil => trivial
  | cons key keys ih => exact ⟨trivial, ih _⟩

/-- Facts of one size under new keys add up, while there is room. -/
theorem factTotal_foldl_recordDisplay {facts : Json} (hobj : facts.isObject = true)
    (hsize : jsonEstimatedBytes facts ≤ kFactBytes) {size : Nat} {keys : List Bytes}
    (hkeys : ∀ key ∈ keys, key ≠ [] ∧ factSize key facts = size) (hnodup : keys.Nodup)
    {c : Conversation} (hsound : c.Sound)
    (hnew : ∀ key ∈ keys, Assoc.lookup key c.displayFacts = none)
    (hcount : c.displayFacts.length + keys.length ≤ kFactCount)
    (hbytes : c.displayBytes + size * keys.length ≤ kDisplayBytes) :
    ((keys.map (ConversationStep.recordDisplay · facts)).foldl step c).factTotal =
      c.factTotal + size * keys.length := by
  induction keys generalizing c with
  | nil => rfl
  | cons key keys ih =>
    rw [List.length_cons] at hcount hbytes
    have hroom : size ≤ size * (keys.length + 1) := Nat.le_mul_of_pos_right _ (Nat.succ_pos _)
    obtain ⟨hne, hkey⟩ := hkeys key List.mem_cons_self
    have hlookup := hnew key List.mem_cons_self
    have hstep := recordDisplay_new hne hobj hlookup hsize (by omega) (by rw [hkey]; omega)
    have hperm : (Assoc.insert key (factSize key facts) c.factBytes).Perm
        ((key, size) :: c.factBytes) := by
      rw [hkey]
      refine Assoc.insert_perm (Assoc.lookup_eq_none.mpr fun hmem => ?_) _
      rw [hsound.facts, List.map_map] at hmem
      exact Assoc.lookup_eq_none.mp hlookup hmem
    have htotal : (c.recordDisplay key facts).factTotal = c.factTotal + size := by
      rw [hstep, factTotal, factTotal, (hperm.map Prod.snd).sum_eq, List.map_cons, List.sum_cons,
        Nat.add_comm]
    have hlen : (c.recordDisplay key facts).displayFacts.length = c.displayFacts.length + 1 := by
      rw [hstep]
      exact (Assoc.insert_perm hlookup facts).length_eq
    have hsum : (c.recordDisplay key facts).displayBytes = c.displayBytes + size := by
      rw [hstep, ← hkey]
    rw [List.map_cons, List.foldl_cons, List.length_cons]
    show (List.foldl step (c.recordDisplay key facts) _).factTotal = _
    rw [ih (fun k hk => hkeys k (List.mem_cons_of_mem key hk)) (List.nodup_cons.mp hnodup).2
      (hsound.recordDisplay key facts) ?_ (by rw [hlen]; omega) (by rw [hsum, Nat.mul_succ] at *; omega),
      htotal, Nat.mul_succ]
    · omega
    · intro k hk
      have hkk : k ≠ key := fun h => (List.nodup_cons.mp hnodup).1 (h ▸ hk)
      rw [hstep]
      show Assoc.lookup k (Assoc.insert key facts c.displayFacts) = none
      rw [Assoc.lookup_insert_ne hkk]
      exact hnew k (List.mem_cons_of_mem key hk)

end Full

/-- The largest fact that is recorded under a key of one byte. -/
def fullFact : Json := .obj [(lit "t", .str (List.replicate 65516 0x61))]

theorem jsonEstimatedBytes_fullFact : jsonEstimatedBytes fullFact = 65535 := by
  simp only [fullFact, jsonEstimatedBytes, estimatedFields, List.length_replicate]
  decide

/-- 64 keys of one byte. -/
def fullKeys : List Bytes := (List.range 64).map fun i => [UInt8.ofNat (0x30 + i)]

/-- A session whose display facts fill their budget to the last byte. -/
def fullFacts : List ConversationStep :=
  .reset [(.obj [(lit "content", .str (lit "Be brief."))], .system)] ::
    fullKeys.map (.recordDisplay · fullFact)

/-- A session whose facts fill their budget is saved and never opens again. -/
theorem saved_full_never_reopens :
    ∃ c, Run (@step Json.bitsText zeroSum) Fits {} c ∧ c.messages ≠ [] ∧
      @reopen Json.bitsText c = none := by
  let _ := Json.bitsText
  let _ := zeroSum
  have hrun : Run step Fits {} (fullFacts.foldl step {}) :=
    .of_allOk ⟨by decide, allOk_recordDisplay fullFact fullKeys _⟩
  have hstart : (reset [(.obj [(lit "content", .str (lit "Be brief."))], .system)]).Sound :=
    sound_step {} (.reset _) Sound.fresh (by decide)
  have hsize : ∀ key ∈ fullKeys, key ≠ [] ∧ factSize key fullFact = 65536 := by
    intro key hkey
    obtain ⟨i, -, rfl⟩ := List.mem_map.mp hkey
    exact ⟨by simp, by rw [factSize, jsonEstimatedBytes_fullFact]; rfl⟩
  have htotal : (fullFacts.foldl step {}).factTotal = 65536 * 64 := by
    have hlen : fullKeys.length = 64 := by rw [fullKeys, List.length_map, List.length_range]
    have hfold := factTotal_foldl_recordDisplay (show fullFact.isObject = true from rfl)
      (by rw [jsonEstimatedBytes_fullFact]; decide) hsize (by decide) hstart
      (fun _ _ => rfl) (by rw [hlen]; decide) (by rw [hlen]; decide)
    rw [hlen] at hfold
    rw [fullFacts, List.foldl_cons]
    exact hfold
  have hsound : (fullFacts.foldl step {}).Sound := hrun.invariant Sound.fresh sound_step
  generalize hc : fullFacts.foldl step {} = c at hrun htotal hsound
  refine ⟨c, hrun, ?_, reopen_eq_none hsound fun hopen => ?_⟩
  · rw [messages, ← hc, fullFacts, List.foldl_cons, rows_foldl_recordDisplay]
    decide
  · have hroom := hopen.1
    rw [htotal] at hroom
    exact absurd hroom (by decide)

end Conversation

end UAgent
