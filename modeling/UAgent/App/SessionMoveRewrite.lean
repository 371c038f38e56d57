/-
UAgent/App/SessionMoveRewrite.lean

Rewriting a moved record a second time, as a recovery does with one the
crashed host had rewritten already: it leaves the record alone when none of
its texts holds a renamed text any more.

That does not follow from the first rewriting.  A replaced id may join with
the text after it to another occurrence of the old one.
-/
import UAgent.Agent.ConversationRestore
import UAgent.App.SessionMove

namespace UAgent

open Bytes

/-! ### Strings -/

mutual

/-- Rewriting that leaves every string of a value alone leaves the value
alone. -/
theorem mapStrings_of_fixed {f : Bytes → Bytes} :
    (j : Json) → (∀ s ∈ stringsOf j, f s = s) → mapStrings f j = j
  | .str s, h => by rw [mapStrings, h s (by simp [stringsOf])]
  | .arr items, h => by
    rw [mapStrings, mapStringsItems_of_fixed items h]
  | .obj fields, h => by
    rw [mapStrings, mapStringsFields_of_fixed fields h]
  | .null, _ | .bool _, _ | .int _, _ | .uint _, _ | .float _, _ => rfl

theorem mapStringsItems_of_fixed {f : Bytes → Bytes} :
    (items : List Json) → (∀ s ∈ stringsOfItems items, f s = s) → mapStringsItems f items = items
  | [], _ => rfl
  | j :: items, h => by
    rw [mapStringsItems, mapStrings_of_fixed j fun s hs => h s (List.mem_append_left _ hs),
      mapStringsItems_of_fixed items fun s hs => h s (List.mem_append_right _ hs)]

theorem mapStringsFields_of_fixed {f : Bytes → Bytes} :
    (fields : List (Bytes × Json)) → (∀ s ∈ stringsOfFields fields, f s = s) →
      mapStringsFields f fields = fields
  | [], _ => rfl
  | (k, v) :: fields, h => by
    rw [mapStringsFields, mapStrings_of_fixed v fun s hs => h s (List.mem_append_left _ hs),
      mapStringsFields_of_fixed fields fun s hs => h s (List.mem_append_right _ hs)]

end

/-- No text of the state holds a text that the move of `file` renames. -/
def Clean (move : SessionMove) (file : MovedFile) (state : SessionState) : Prop :=
  ∀ s ∈ state.strings, ∀ rename ∈ renames move file, ¬rename.1 <:+: s

instance (move : SessionMove) (file : MovedFile) (state : SessionState) :
    Decidable (Clean move file state) := by
  unfold Clean; infer_instance

theorem rewriteText_of_clean {renames : List (Bytes × Bytes)} {text : Bytes}
    (h : ∀ rename ∈ renames, ¬rename.1 <:+: text) : rewriteText renames text = (text, false) := by
  have hstep : ∀ done : Bool, renames.foldl (fun state rename =>
      if (find rename.1 state.1).isSome then (replaceAll state.1 rename.1 rename.2, true)
      else state) (text, done) = (text, done) := by
    induction renames with
    | nil => exact fun _ => rfl
    | cons rename renames ih =>
      intro done
      rw [List.foldl_cons, find_eq_none (h rename List.mem_cons_self)]
      exact ih (fun r hr => h r (List.mem_cons_of_mem _ hr)) done
  exact hstep false

theorem rewriteStrings_of_clean {move : SessionMove} {file : MovedFile} {state : SessionState}
    (h : Clean move file state) : rewriteStrings move file state = (state, false) := by
  have htext : ∀ s ∈ state.strings, rewriteText (renames move file) s = (s, false) :=
    fun s hs => rewriteText_of_clean (h s hs)
  have hany : (state.strings.any fun text => (rewriteText (renames move file) text).2) = false := by
    rw [List.any_eq_false]
    intro s hs
    rw [htext s hs]
    simp
  have hfixed : ∀ s ∈ state.strings, (rewriteText (renames move file) s).1 = s :=
    fun s hs => by rw [htext s hs]
  unfold SessionState.strings at hfixed
  have hmessages := mapStrings_of_fixed (f := fun t => (rewriteText (renames move file) t).1)
    state.messages fun s hs => hfixed s (List.mem_append_left _ (List.mem_append_left _ hs))
  have harchive := mapStrings_of_fixed (f := fun t => (rewriteText (renames move file) t).1)
    state.archive fun s hs => hfixed s (List.mem_append_left _ (List.mem_append_right _ hs))
  have hdisplay := mapStrings_of_fixed (f := fun t => (rewriteText (renames move file) t).1)
    state.display fun s hs => hfixed s (List.mem_append_right _ hs)
  rw [rewriteStrings, hany]
  simp only [hmessages, harchive, hdisplay]

/-! ### The note -/

/-- A pushed message that is not shown with its time is the last row. -/
theorem rows_push_internal (c : Conversation) (message : Json) (stamp : Bytes) :
    (c.push message .internal stamp).rows =
      c.rows ++ [⟨normalizeRole message .internal, .internal, c.nextDisplayId⟩] := rfl

/-- The note reads back from its message. -/
theorem content_harnessMessage (note : Bytes) :
    jsonValueStr (normalizeRole (harnessMessage note) .internal) (lit "content") [] = note := rfl

section Note

variable [DoubleText] [DoubleSum] {host : MoveHost} {move : SessionMove}

/-- Once added, the note is there. -/
theorem hasNote_of_addNote {state noted : SessionState} {added : Bool}
    (h : addNote host move state = .ok (noted, added)) : hasNote noted move.note = true := by
  unfold addNote at h
  split_ifs at h with hthere
  · cases h
    exact hthere
  · split at h
    · cases h
    · rename_i conversation hrestore
      cases h
      simp only [hasNote, Conversation.messages, Conversation.kinds, Conversation.rows_recordEntry,
        rows_push_internal, Json.items, List.map_append, List.map_cons, List.map_nil,
        List.getLast?_concat, Option.map_some, content_harnessMessage]
      simp

theorem addNote_of_hasNote {state : SessionState} (h : hasNote state move.note = true) :
    addNote host move state = .ok (state, false) := if_pos h

end Note

/-! ### The metadata -/

/-- No id of the move's new places is one of its old places. -/
def FreshIds (move : SessionMove) : Prop :=
  ∀ file ∈ move.files, ∀ other ∈ move.files,
    sessionIdFor file.toPath ≠ sessionIdFor other.fromPath

instance (move : SessionMove) : Decidable (FreshIds move) := by
  unfold FreshIds; infer_instance

theorem mem_movedIds {move : SessionMove} {ids : Bytes × Bytes} (h : ids ∈ movedIds move) :
    ∃ file ∈ move.files, ids = (sessionIdFor file.fromPath, sessionIdFor file.toPath) := by
  have hfold : ∀ (files : List MovedFile) (acc : List (Bytes × Bytes)),
      ids ∈ files.foldl (fun acc file =>
        Assoc.insert (sessionIdFor file.fromPath) (sessionIdFor file.toPath) acc) acc →
      ids ∈ acc ∨
        ∃ file ∈ files, ids = (sessionIdFor file.fromPath, sessionIdFor file.toPath) := by
    intro files
    induction files with
    | nil => exact fun acc hacc => .inl hacc
    | cons file files ih =>
      intro acc hacc
      rcases ih _ hacc with hacc | ⟨other, hother, heq⟩
      · rcases Assoc.eq_or_mem_of_mem_insert hacc with heq | hacc
        · exact .inr ⟨file, List.mem_cons_self, heq⟩
        · exact .inl hacc
      · exact .inr ⟨other, List.mem_cons_of_mem _ hother, heq⟩
  exact (hfold move.files [] h).resolve_left List.not_mem_nil

/-- A new id is no key of the moved ids. -/
theorem lookup_movedIds_of_mem {move : SessionMove} (hfresh : FreshIds move) {old new : Bytes}
    (h : (old, new) ∈ movedIds move) : Assoc.lookup new (movedIds move) = none := by
  rw [Assoc.lookup_eq_none]
  intro hmem
  obtain ⟨⟨key, value⟩, hkey, rfl⟩ := List.mem_map.mp hmem
  obtain ⟨file, hfile, heq⟩ := mem_movedIds h
  obtain ⟨other, hother, heq'⟩ := mem_movedIds hkey
  exact hfresh file hfile other hother ((Prod.mk.inj heq).2.symm.trans (Prod.mk.inj heq').1)

theorem lookup_movedIds_nil (move : SessionMove) : Assoc.lookup [] (movedIds move) = none := by
  rw [Assoc.lookup_eq_none]
  intro hmem
  obtain ⟨⟨key, value⟩, hkey, heq⟩ := List.mem_map.mp hmem
  obtain ⟨file, -, hids⟩ := mem_movedIds hkey
  have hlen := length_hashHex file.fromPath
  rw [show hashHex file.fromPath = ([] : Bytes) from (Prod.mk.inj hids).1.symm.trans heq] at hlen
  cases hlen

/-- A rewritten parent is none of the move's old ids. -/
theorem lookup_parent_rewriteMetadata (host : MoveHost) {move : SessionMove}
    (hfresh : FreshIds move) (metadata : SessionMetadata) :
    Assoc.lookup (jsonValueStr (rewriteMetadata host move metadata).1.agent (lit "parent") [])
      (movedIds move) = none := by
  unfold rewriteMetadata
  dsimp only
  have hagent : (if host.canonical metadata.cwd = host.canonical move.fromCwd then
      { metadata with cwd := move.toCwd } else metadata).agent = metadata.agent := by
    split_ifs <;> rfl
  rcases hparent : Assoc.lookup (jsonValueStr metadata.agent (lit "parent") []) (movedIds move)
    with - | parent
  · simp only [hagent, hparent]
  · simp only [hagent, hparent]
    have hobj : metadata.agent.isObject = true := by
      by_contra hno
      have hnil : jsonValueStr metadata.agent (lit "parent") [] = [] := by
        cases hj : metadata.agent <;> first | rfl | (rw [hj] at hno; exact absurd rfl hno)
      rw [hnil, lookup_movedIds_nil] at hparent
      cases hparent
    have hread : jsonValueStr (metadata.agent.set (lit "parent") (.str parent)) (lit "parent") []
        = parent := by
      rw [jsonValueStr, Json.get?_set hobj, if_pos rfl]
    rw [hread]
    exact lookup_movedIds_of_mem hfresh (Assoc.mem_of_lookup hparent)

theorem cwd_rewriteMetadata (host : MoveHost) (move : SessionMove) (metadata : SessionMetadata) :
    (rewriteMetadata host move metadata).1.cwd =
      if host.canonical metadata.cwd = host.canonical move.fromCwd then move.toCwd
      else metadata.cwd := by
  unfold rewriteMetadata
  dsimp only
  split <;> split_ifs <;> rfl

/-- The metadata of a moved session is rewritten once. -/
theorem rewriteMetadata_rewriteMetadata {host : MoveHost} {move : SessionMove}
    (hfresh : FreshIds move) (metadata : SessionMetadata) :
    (rewriteMetadata host move (rewriteMetadata host move metadata).1).1 =
      (rewriteMetadata host move metadata).1 := by
  have hparent := lookup_parent_rewriteMetadata host hfresh metadata
  have hcwd := cwd_rewriteMetadata host move metadata
  generalize (rewriteMetadata host move metadata).1 = once at hparent hcwd
  unfold rewriteMetadata
  dsimp only
  have hsame : (if host.canonical once.cwd = host.canonical move.fromCwd then
      { once with cwd := move.toCwd } else once) = once := by
    split_ifs with hhere
    · have hto : once.cwd = move.toCwd := by
        split_ifs at hcwd with hmoved
        · exact hcwd
        · exact absurd (hcwd ▸ hhere) hmoved
      rw [← hto]
    · rfl
  rw [hsame, hparent]

/-! ### A record rewritten again -/

section Record

variable [DoubleText] [DoubleSum] {host : MoveHost} {move : SessionMove}

/-- What the rewriting of one record leaves on the disk, when it succeeds. -/
def Rewrites (host : MoveHost) (move : SessionMove) (entry : MovedFile × Nat)
    (old new : SessionRecord) : Prop :=
  (new = old ∧ ∃ record, rewriteRecord host move entry.2 entry.1 old = .ok (record, false)) ∨
    (rewriteRecord host move entry.2 entry.1 old = .ok (new, true) ∧
      ∃ text, sessionText new = .ok text)

/-- A rewritten record has the rewritten metadata and, if it is the first, the
note. -/
theorem rewriteRecord_eq_ok {index : Nat} {file : MovedFile} {old new : SessionRecord}
    {changed : Bool} (h : rewriteRecord host move index file old = .ok (new, changed)) :
    new.metadata = (rewriteMetadata host move old.metadata).1 ∧
      (index = 0 → hasNote new.state move.note = true) := by
  unfold rewriteRecord at h
  dsimp only at h
  split_ifs at h with hfirst
  · split at h
    · cases h
    · rename_i noted hadd
      obtain ⟨rfl, -⟩ := Prod.mk.inj (Except.ok.inj h)
      exact ⟨rfl, fun _ => hasNote_of_addNote hadd⟩
  · obtain ⟨rfl, -⟩ := Prod.mk.inj (Except.ok.inj h)
    exact ⟨rfl, fun hzero => absurd hzero hfirst⟩

/-- What is left is rewritten to itself, if no renamed text is left in it. -/
theorem Rewrites.again (hfresh : FreshIds move) {entry : MovedFile × Nat}
    {old new : SessionRecord} (h : Rewrites host move entry old new)
    (hclean : Clean move entry.1 new.state) : Rewrites host move entry new new := by
  rcases h with ⟨rfl, hsame⟩ | ⟨hnew, hsaved⟩
  · exact .inl ⟨rfl, hsame⟩
  · obtain ⟨hmeta, hnote⟩ := rewriteRecord_eq_ok hnew
    have hagain : ∃ changed,
        rewriteRecord host move entry.2 entry.1 new = .ok (new, changed) := by
      unfold rewriteRecord
      dsimp only
      have hfixed : (rewriteMetadata host move new.metadata).1 = new.metadata := by
        rw [hmeta, rewriteMetadata_rewriteMetadata hfresh]
      rw [rewriteStrings_of_clean hclean, hfixed]
      split_ifs with hfirst
      · rw [addNote_of_hasNote (hnote hfirst)]
        exact ⟨_, rfl⟩
      · exact ⟨_, rfl⟩
    obtain ⟨changed, hagain⟩ := hagain
    cases changed with
    | false => exact .inl ⟨rfl, new, hagain⟩
    | true => exact .inr ⟨hagain, hsaved⟩

end Record

end UAgent
