/-
UAgent/Agent/UndoBudget.lean

The undo budget of an `EditJournal`: `stored_bytes_` against the blobs the
journal keeps (`keptBytes`).

`Record` adds what it keeps.  `Revert` takes blobs away and leaves the counter
alone, and `Open` counts every file of the directory, the index it has just
read among them.  So the counter is right in a run in which no file that had
bytes is put back and no saved journal is opened again
(`storedBytes_eq_keptBytes`); otherwise it only grows.
-/
import UAgent.Agent.EditJournal
import UAgent.Base.Run

namespace UAgent

open Bytes

namespace EditJournal

variable {turns : List (Int × List EditEntry)} {turn : Int} {name path : Bytes}

/-! ### The blobs that are kept -/

/-- An entry that has a blob. -/
def keeps (turn : Int) (name : Bytes) (entry : EditEntry) : Bool :=
  entry.undoable && entry.existed && blobName turn entry.path = name

/-- A file of the directory that is an entry's blob. -/
def isKept (turns : List (Int × List EditEntry)) (name : Bytes) : Bool :=
  turns.any fun e => e.2.any (keeps e.1 name)

theorem isKept_iff (h : Assoc.Sorted turns) :
    isKept turns name ↔
      ∃ turn, ∃ entry ∈ (Assoc.lookup turn turns).getD [], keeps turn name entry := by
  rw [isKept, List.any_eq_true]
  constructor
  · rintro ⟨⟨turn, entries⟩, hmem, hany⟩
    rw [List.any_eq_true] at hany
    refine ⟨turn, ?_⟩
    rwa [Assoc.lookup_of_mem h hmem]
  · rintro ⟨turn, entry, hentry, hkeeps⟩
    cases hlookup : Assoc.lookup turn turns with
    | none => exact absurd (hlookup ▸ hentry) List.not_mem_nil
    | some entries =>
      rw [hlookup] at hentry
      exact ⟨(turn, entries), Assoc.mem_of_lookup hlookup,
        List.any_eq_true.mpr ⟨entry, hentry, hkeeps⟩⟩

/-- A blob's name begins with its turn. -/
theorem head_blobName (turn : Int) (path : Bytes) :
    ∃ c ∈ (blobName turn path).head?, c ≤ 0x39 := by
  have hdecimal : ∀ n : Nat, ∃ c ∈ (Json.decimal n).head?, c ≤ 0x39 := fun n => by
    obtain ⟨c, digits, hdigits⟩ := List.exists_cons_of_ne_nil (Json.decimal_ne_nil n)
    refine ⟨c, by rw [hdigits]; rfl, ?_⟩
    exact (Json.digit_of_mem_decimal (hdigits ▸ List.mem_cons_self)).2
  rw [blobName, Json.decimalInt, List.append_assoc]
  split_ifs
  · exact ⟨ch '-', rfl, by decide⟩
  · obtain ⟨c, hc, hle⟩ := hdecimal turn.natAbs
    exact ⟨c, List.mem_head?_append_of_mem_head? hc, hle⟩

/-- No blob has a name that begins with a letter. -/
theorem isKept_of_head {c : UInt8} (hc : 0x39 < c) (hname : name.head? = some c) :
    isKept turns name = false := by
  rw [isKept, Bool.eq_false_iff]
  intro hkept
  obtain ⟨e, -, hany⟩ := List.any_eq_true.mp hkept
  obtain ⟨entry, -, hkeeps⟩ := List.any_eq_true.mp hany
  have heq : blobName e.1 entry.path = name := by
    rw [keeps, Bool.and_eq_true] at hkeeps
    exact of_decide_eq_true hkeeps.2
  obtain ⟨d, hd, hle⟩ := head_blobName e.1 entry.path
  rw [heq, hname] at hd
  obtain rfl := Option.some.inj hd
  exact absurd hc (UInt8.not_lt.mpr hle)

/-- The index and the stored diffs are no blobs. -/
theorem isKept_indexName : isKept turns indexName = false :=
  isKept_of_head (c := ch 'i') (by decide) (by decide)

theorem isKept_diff (rest : Bytes) : isKept turns (lit "diff-" ++ rest) = false :=
  isKept_of_head (c := ch 'd') (by decide)
    (List.mem_head?_append_of_mem_head? (by decide : ch 'd' ∈ (lit "diff-").head?))

theorem setAfterHash_eq_map_paths (path hash : Bytes) (entries : List EditEntry) :
    (setAfterHash path hash entries).map EditEntry.path = entries.map EditEntry.path := by
  induction entries with
  | nil => rfl
  | cons entry entries ih =>
    rw [setAfterHash]
    split_ifs
    · rfl
    · rw [List.map_cons, ih, List.map_cons]

/-- A new hash changes no blob. -/
theorem any_keeps_setAfterHash (path hash : Bytes) (entries : List EditEntry) :
    (setAfterHash path hash entries).any (keeps turn name) = entries.any (keeps turn name) := by
  induction entries with
  | nil => rfl
  | cons entry entries ih =>
    rw [setAfterHash]
    split_ifs
    · rfl
    · rw [List.any_cons, ih, List.any_cons]

end EditJournal

namespace EditState

open EditJournal

variable {displayPath : Bytes → Bytes} {s : EditState} {turn : Int} {name path : Bytes}
  {editFileBytes : Nat} {io : EditIo}

/-- The total size of the blobs the journal keeps. -/
def keptBytes (s : EditState) : Nat :=
  Assoc.weight (isKept s.journal.turns) List.length s.store.files

/-! ### Putting files back -/

/-- `Revert` can put the file of an entry back. -/
def Restorable (editFileBytes : Nat) (io : EditIo) (s : EditState) (turn : Int)
    (entry : EditEntry) : Prop :=
  entry.undoable = true ∧ holds editFileBytes io s.files entry.path entry.afterHash = true ∧
    if entry.existed then
      io.write entry.path = none ∧ io.blob entry.path = none ∧
        ∃ before, Assoc.lookup (blobName turn entry.path) s.store.files = some before ∧
          before.length ≤ kUndoFileBytes
    else io.remove entry.path = none

theorem readRegularFile_eq_ok {node : DiskNode} {cap : Nat} {fault : Option Cause}
    {content : Bytes} (h : readRegularFile node cap fault = .ok content) :
    (∃ mode, node = .regular content mode) ∧ content.length ≤ cap ∧ fault = none := by
  rcases node with - | ⟨held, mode⟩ | - <;> simp only [readRegularFile, reduceCtorEq] at h
  rcases fault with - | cause <;> split_ifs at h with hlong
  obtain rfl := Except.ok.inj h
  exact ⟨⟨mode, rfl⟩, not_lt.mp hlong, rfl⟩

theorem lookup_of_node {store : EditStore} {content : Bytes} {mode : Nat}
    (h : store.node name = .regular content mode) :
    Assoc.lookup name store.files = some content := by
  rw [EditStore.node] at h
  cases hlookup : Assoc.lookup name store.files with
  | none => simp [hlookup] at h
  | some held =>
    rw [hlookup] at h
    exact congrArg some (DiskNode.regular.inj h).1

/-- What is put back could be. -/
theorem restorable_of_putBack {entry : EditEntry}
    (h : (putBack editFileBytes io s turn entry).2 = none) :
    Restorable editFileBytes io s turn entry := by
  rw [putBack] at h
  split_ifs at h with hundoable hholds hexisted
  · -- the file was new
    rw [Bool.not_eq_false] at hundoable hholds
    refine ⟨hundoable, hholds, ?_⟩
    rw [if_neg (by simp [hexisted])]
    cases hremove : io.remove entry.path with
    | none => rfl
    | some cause => simp [hremove] at h
  · rw [Bool.not_eq_false] at hundoable hholds hexisted
    refine ⟨hundoable, hholds, ?_⟩
    rw [if_pos hexisted]
    cases hread : readRegularFile (s.store.node (blobName turn entry.path)) kUndoFileBytes
        (io.blob entry.path) with
    | error error => simp [hread] at h
    | ok before =>
      obtain ⟨⟨mode, hnode⟩, hlength, hblob⟩ := readRegularFile_eq_ok hread
      refine ⟨?_, hblob, before, lookup_of_node hnode, hlength⟩
      cases hwrite : io.write entry.path with
      | none => rfl
      | some fault => simp [hread, hwrite, atomicWriteFile] at h

/-- Other files are left alone. -/
theorem putBack_of_ne {entry : EditEntry} (h : path ≠ entry.path) :
    (putBack editFileBytes io s turn entry).1 path = s.files path := by
  rw [putBack]
  split_ifs
  · rfl
  · rfl
  · cases io.remove entry.path with
    | none => exact Function.update_of_ne h _ _
    | some cause => rfl
  · cases readRegularFile (s.store.node (blobName turn entry.path)) kUndoFileBytes
        (io.blob entry.path) with
    | error error => rfl
    | ok before => exact Function.update_of_ne h _ _

/-! ### The loop of `Revert` -/

theorem settled_files_of_ne {entry : EditEntry} (h : path ≠ entry.path) {only : Bytes} :
    (settled displayPath editFileBytes io turn only s entry).files path = s.files path := by
  rw [settled_files]
  split_ifs
  · rfl
  · exact putBack_of_ne h

theorem mem_settled_store {entry : EditEntry} {only : Bytes} {file : Bytes × Bytes}
    (h : file ∈ (settled displayPath editFileBytes io turn only s entry).store.files) :
    file ∈ s.store.files := by
  rw [settled_store] at h
  split_ifs at h
  · exact h
  · exact (Assoc.mem_erase.mp h).1

/-- What could be put back after one entry could be before it. -/
theorem restorable_of_settled {entry other : EditEntry} (hne : other.path ≠ entry.path)
    {only : Bytes}
    (h : Restorable editFileBytes io
      (settled displayPath editFileBytes io turn only s entry) turn other) :
    Restorable editFileBytes io s turn other := by
  obtain ⟨hundoable, hholds, hback⟩ := h
  refine ⟨hundoable, ?_, ?_⟩
  · rw [holds, settled_files_of_ne hne] at hholds
    rw [holds]
    exact hholds
  · cases hexisted : other.existed with
    | false => simpa [hexisted] using hback
    | true =>
      rw [hexisted, if_pos rfl] at hback
      obtain ⟨hwrite, hblob, before, hlookup, hlength⟩ := hback
      rw [if_pos rfl]
      refine ⟨hwrite, hblob, before, ?_, hlength⟩
      exact Assoc.lookup_of_mem s.store.sorted (mem_settled_store (Assoc.mem_of_lookup hlookup))

/-- What settling an entry takes from the directory. -/
theorem weight_settled {entry : EditEntry} {only : Bytes} {p : Bytes → Bool}
    (h : picks displayPath only entry = true → Restorable editFileBytes io s turn entry →
      ∀ content, (blobName turn entry.path, content) ∈ s.store.files →
        p (blobName turn entry.path) → content.length = 0) :
    Assoc.weight p List.length
        (settled displayPath editFileBytes io turn only s entry).store.files =
      Assoc.weight p List.length s.store.files := by
  rw [settled_store]
  split_ifs with hstays
  · rfl
  · rw [not_or, not_or, Bool.not_eq_false, Option.not_isSome_iff_eq_none] at hstays
    exact Assoc.weight_erase (h hstays.1 (restorable_of_putBack hstays.2.1))

section Distinct

variable {entry : EditEntry} {entries : List EditEntry} {only : Bytes}

theorem path_ne_of_mem_tail (h : ((entry :: entries).map EditEntry.path).Nodup)
    {other : EditEntry} (hother : other ∈ entries) : other.path ≠ entry.path := by
  rw [List.map_cons, List.nodup_cons] at h
  exact fun heq => h.1 (heq ▸ List.mem_map_of_mem hother)

@[simp] theorem revertEntries_journal :
    (revertEntries displayPath editFileBytes io turn only entries s).2.2.journal = s.journal := by
  induction entries generalizing s with
  | nil => rfl
  | cons entry entries ih => rw [revertEntries_cons_state, ih, settled_journal]

theorem revertEntries_kept_sublist :
    (revertEntries displayPath editFileBytes io turn only entries s).1.Sublist entries := by
  induction entries generalizing s with
  | nil => exact List.Sublist.refl _
  | cons entry entries ih =>
    rw [revertEntries_cons_kept]
    split_ifs
    · exact ih.cons_cons entry
    · exact ih.cons entry

/-- An entry that is gone has been put back. -/
theorem restorable_of_gone (hpaths : (entries.map EditEntry.path).Nodup) {other : EditEntry}
    (hother : other ∈ entries)
    (hgone : other ∉ (revertEntries displayPath editFileBytes io turn only entries s).1) :
    picks displayPath only other = true ∧ Restorable editFileBytes io s turn other := by
  induction entries generalizing s with
  | nil => exact absurd hother List.not_mem_nil
  | cons entry entries ih =>
    rw [revertEntries_cons_kept, List.mem_append, not_or] at hgone
    rcases List.mem_cons.mp hother with rfl | hother
    · split_ifs at hgone with hstays
      · exact absurd List.mem_cons_self hgone.1
      · rw [not_or, Bool.not_eq_false, Option.not_isSome_iff_eq_none, reasonOf] at hstays
        rw [if_neg (by simp [hstays.1])] at hstays
        exact ⟨hstays.1, restorable_of_putBack hstays.2⟩
    · have htail := (List.nodup_cons.mp hpaths).2
      obtain ⟨hpicks, hback⟩ := ih htail hother hgone.2
      exact ⟨hpicks, restorable_of_settled (path_ne_of_mem_tail hpaths hother) hback⟩

theorem mem_revertEntries_store {file : Bytes × Bytes}
    (h : file ∈ (revertEntries displayPath editFileBytes io turn only entries s).2.2.store.files) :
    file ∈ s.store.files := by
  induction entries generalizing s with
  | nil => exact h
  | cons entry entries ih =>
    rw [revertEntries_cons_state] at h
    exact mem_settled_store (ih h)

/-- **What the loop takes from the directory.**  A part of the directory keeps
its size when no blob with bytes that may go is in the part. -/
theorem weight_revertEntries (hpaths : (entries.map EditEntry.path).Nodup) {p : Bytes → Bool}
    (h : ∀ entry ∈ entries, picks displayPath only entry = true →
      Restorable editFileBytes io s turn entry →
      ∀ content, (blobName turn entry.path, content) ∈ s.store.files →
        p (blobName turn entry.path) → content.length = 0) :
    Assoc.weight p List.length
        (revertEntries displayPath editFileBytes io turn only entries s).2.2.store.files =
      Assoc.weight p List.length s.store.files := by
  induction entries generalizing s with
  | nil => rfl
  | cons entry entries ih =>
    have htail := (List.nodup_cons.mp hpaths).2
    rw [revertEntries_cons_state, ih htail, weight_settled (h entry List.mem_cons_self)]
    intro other hother hpicks hback content hcontent
    have hback := restorable_of_settled (path_ne_of_mem_tail hpaths hother) hback
    exact h other (List.mem_cons_of_mem entry hother) hpicks hback content
      (mem_settled_store hcontent)

end Distinct

/-- `Revert` leaves the counter alone, whatever blobs it takes away. -/
theorem revert_storedBytes [DoubleText] :
    (s.revert displayPath editFileBytes io turn path).2.journal.storedBytes =
      s.journal.storedBytes := by
  rw [revert]
  cases Assoc.lookup turn s.journal.turns with
  | none => rfl
  | some entries =>
    show (revertEntries displayPath editFileBytes io turn path entries s).2.2.journal.storedBytes = _
    rw [revertEntries_journal]

/-! ### The turns after an operation -/

/-- One turn's entries have been replaced. -/
structure Replaces (turns : List (Int × List EditEntry)) (turn : Int) (entries : List EditEntry)
    (turns' : List (Int × List EditEntry)) : Prop where
  sorted : Assoc.Sorted turns'
  entries : ∀ t, (Assoc.lookup t turns').getD [] =
    if t = turn then entries else (Assoc.lookup t turns).getD []

namespace Replaces

variable {turns turns' : List (Int × List EditEntry)} {entries : List EditEntry}

theorem insert (h : Assoc.Sorted turns) (turn : Int) (entries : List EditEntry) :
    Replaces turns turn entries (Assoc.insert turn entries turns) where
  sorted := Assoc.sorted_insert h turn entries
  entries t := by
    rw [Assoc.lookup_insert]
    split_ifs <;> rfl

theorem erase (h : Assoc.Sorted turns) (turn : Int) :
    Replaces turns turn [] (Assoc.erase turn turns) where
  sorted := Assoc.sorted_erase h turn
  entries t := by
    rw [Assoc.lookup_erase]
    split_ifs <;> rfl

/-- The paths of every turn differ when the new ones do. -/
theorem paths (h : Replaces turns turn entries turns')
    (hold : ∀ t, (((Assoc.lookup t turns).getD []).map EditEntry.path).Nodup)
    (hnew : (entries.map EditEntry.path).Nodup) (t : Int) :
    (((Assoc.lookup t turns').getD []).map EditEntry.path).Nodup := by
  rw [h.entries]
  split_ifs
  · exact hnew
  · exact hold t

/-- The blobs kept are those of the new entries and of the other turns. -/
theorem isKept_iff (h : Replaces turns turn entries turns') (name : Bytes) :
    isKept turns' name ↔ entries.any (keeps turn name) ∨
      ∃ t ≠ turn, ((Assoc.lookup t turns).getD []).any (keeps t name) := by
  rw [EditJournal.isKept_iff h.sorted]
  constructor
  · rintro ⟨t, entry, hentry, hkeeps⟩
    rw [h.entries] at hentry
    split_ifs at hentry with ht
    · subst ht
      exact .inl (List.any_eq_true.mpr ⟨entry, hentry, hkeeps⟩)
    · exact .inr ⟨t, ht, List.any_eq_true.mpr ⟨entry, hentry, hkeeps⟩⟩
  · rintro (hany | ⟨t, ht, hany⟩)
    · obtain ⟨entry, hentry, hkeeps⟩ := List.any_eq_true.mp hany
      refine ⟨turn, entry, ?_, hkeeps⟩
      rwa [h.entries, if_pos rfl]
    · obtain ⟨entry, hentry, hkeeps⟩ := List.any_eq_true.mp hany
      refine ⟨t, entry, ?_, hkeeps⟩
      rwa [h.entries, if_neg ht]

theorem self (h : Assoc.Sorted turns) (turn : Int) :
    Replaces turns turn ((Assoc.lookup turn turns).getD []) turns where
  sorted := h
  entries t := by
    split_ifs with ht
    · rw [ht]
    · rfl

/-- An entry more keeps a blob more. -/
theorem isKept_push (hsorted : Assoc.Sorted turns) {entry : EditEntry}
    (h : Replaces turns turn ((Assoc.lookup turn turns).getD [] ++ [entry]) turns')
    (name : Bytes) : isKept turns' name = (isKept turns name || keeps turn name entry) := by
  have hany : ((Assoc.lookup turn turns).getD [] ++ [entry]).any (keeps turn name) =
      (((Assoc.lookup turn turns).getD []).any (keeps turn name) || keeps turn name entry) := by
    simp
  rw [Bool.eq_iff_iff, h.isKept_iff name, Bool.or_eq_true,
    (self hsorted turn).isKept_iff name, hany, Bool.or_eq_true]
  exact or_right_comm

/-- Entries that keep the same blobs are as good. -/
theorem isKept_congr (hsorted : Assoc.Sorted turns) (h : Replaces turns turn entries turns')
    (hany : entries.any (keeps turn name) =
      ((Assoc.lookup turn turns).getD []).any (keeps turn name)) :
    isKept turns' name = isKept turns name := by
  rw [Bool.eq_iff_iff, h.isKept_iff name, (self hsorted turn).isKept_iff name, hany]

end Replaces

/-! ### The counter -/

/-- The counter is right; the turns are a map and no turn lists a file twice. -/
structure Counted (s : EditState) : Prop where
  sorted : Assoc.Sorted s.journal.turns
  paths : ∀ turn, ((s.journal.entriesOf turn).map EditEntry.path).Nodup
  counted : s.journal.storedBytes = keptBytes s

theorem weight_write {store : EditStore} {p : Bytes → Bool} (h : p name = false) (content : Bytes)
    (fault : Option WriteFault) :
    Assoc.weight p List.length (store.write name content fault).1.files =
      Assoc.weight p List.length store.files := by
  have hset : Assoc.weight p List.length (store.set name content).files =
      Assoc.weight p List.length store.files := Assoc.weight_insert_of_not store.sorted content h
  cases fault with
  | none => exact hset
  | some fault =>
    show Assoc.weight p List.length
      (if fault.replaced then store.set name content else store).files = _
    split_ifs
    · exact hset
    · rfl

namespace Counted

theorem save [DoubleText] (h : Counted s) (fault : Option WriteFault) :
    Counted (s.save fault) where
  sorted := h.sorted
  paths := h.paths
  counted := h.counted.trans (weight_write isKept_indexName _ fault).symm

theorem filesOf [DoubleText] (h : Counted s) (turn : Int) :
    Counted (s.filesOf displayPath editFileBytes io turn).2 := by
  rw [EditState.filesOf]
  cases Assoc.lookup turn s.journal.turns with
  | none => exact h
  | some entries => exact h.save io.index

/-- What the loop leaves, with the turn's entries replaced by those that stay. -/
theorem revertEntries (h : Counted s) {turns' : List (Int × List EditEntry)}
    (hturns : Replaces s.journal.turns turn
      (EditState.revertEntries displayPath editFileBytes io turn path (s.journal.entriesOf turn)
        s).1 turns')
    (hno : ∀ entry ∈ s.journal.entriesOf turn, picks displayPath path entry = true →
      Restorable editFileBytes io s turn entry →
      ∀ content, (blobName turn entry.path, content) ∈ s.store.files →
        isKept s.journal.turns (blobName turn entry.path) → content.length = 0) :
    Counted { (EditState.revertEntries displayPath editFileBytes io turn path
        (s.journal.entriesOf turn) s).2.2 with
      journal := { s.journal with turns := turns' } } := by
  have hkept : (EditState.revertEntries displayPath editFileBytes io turn path
      (s.journal.entriesOf turn) s).1.Sublist (s.journal.entriesOf turn) :=
    revertEntries_kept_sublist
  refine ⟨hturns.sorted, hturns.paths h.paths ((h.paths turn).sublist (hkept.map _)), ?_⟩
  rw [h.counted, keptBytes, keptBytes, ← weight_revertEntries (h.paths turn) hno]
  refine Assoc.weight_congr fun file hfile => ?_
  have hold := (Replaces.self h.sorted turn).isKept_iff file.1
  have hnew := hturns.isKept_iff file.1
  by_cases hbefore : isKept s.journal.turns file.1 = true
  · rcases hold.mp hbefore with hany | hother
    · obtain ⟨entry, hentry, hkeeps⟩ := List.any_eq_true.mp hany
      by_cases hstays : entry ∈ (EditState.revertEntries displayPath editFileBytes io turn path
          (s.journal.entriesOf turn) s).1
      · have hafter := hnew.mpr (.inl (List.any_eq_true.mpr ⟨entry, hstays, hkeeps⟩))
        exact .inl (hbefore.trans hafter.symm)
      · -- it has been put back, so its blob holds no bytes
        obtain ⟨hpicks, hback⟩ := restorable_of_gone (h.paths turn) hentry hstays
        have hname : blobName turn entry.path = file.1 := by
          rw [keeps, Bool.and_eq_true] at hkeeps
          exact of_decide_eq_true hkeeps.2
        refine .inr (hno entry hentry hpicks hback file.2 ?_ (hname ▸ hbefore))
        rw [hname]
        exact mem_revertEntries_store hfile
    · exact .inl (hbefore.trans (hnew.mpr (.inr hother)).symm)
  · refine .inl ?_
    rw [Bool.not_eq_true] at hbefore
    rw [hbefore, eq_comm, Bool.eq_false_iff]
    intro hafter
    have hsome : isKept s.journal.turns file.1 = true := hold.mpr <| by
      rcases hnew.mp hafter with hany | hother
      · obtain ⟨entry, hentry, hkeeps⟩ := List.any_eq_true.mp hany
        exact .inl (List.any_eq_true.mpr ⟨entry, hkept.subset hentry, hkeeps⟩)
      · exact .inr hother
    exact absurd (hbefore.symm.trans hsome) Bool.false_ne_true

/-- A revert that takes no kept bytes away. -/
theorem revert [DoubleText] (h : Counted s)
    (hno : ∀ entry ∈ s.journal.entriesOf turn, picks displayPath path entry = true →
      Restorable editFileBytes io s turn entry →
      ∀ content, (blobName turn entry.path, content) ∈ s.store.files →
        isKept s.journal.turns (blobName turn entry.path) → content.length = 0) :
    Counted (s.revert displayPath editFileBytes io turn path).2 := by
  rw [EditState.revert]
  cases hlookup : Assoc.lookup turn s.journal.turns with
  | none => exact h
  | some entries =>
    have hentries : s.journal.entriesOf turn = entries := by rw [entriesOf, hlookup]; rfl
    dsimp only
    rw [revertEntries_journal, ← hentries]
    refine Counted.save (h.revertEntries ?_ hno) io.index
    split_ifs with hnone
    · rw [hnone]
      exact .erase h.sorted turn
    · exact .insert h.sorted turn _

/-- Adding what a change of the turn's files keeps. -/
theorem push (h : Counted s) {entry : EditEntry}
    (hnew : entry.path ∉ (s.journal.entriesOf turn).map EditEntry.path) {store : EditStore}
    {added : Nat} (hadded : ∀ turns', Replaces s.journal.turns turn
        (s.journal.entriesOf turn ++ [entry]) turns' →
      Assoc.weight (isKept turns') List.length store.files = keptBytes s + added) :
    Counted { s with
      store
      journal :=
        { s.journal with
          turns := Assoc.insert turn (s.journal.entriesOf turn ++ [entry]) s.journal.turns
          storedBytes := s.journal.storedBytes + added } } where
  sorted := Assoc.sorted_insert h.sorted turn _
  paths := (Replaces.insert h.sorted turn _).paths h.paths <| by
    rw [List.map_append, List.map_singleton]
    refine List.nodup_append.mpr ⟨h.paths turn, List.pairwise_singleton _ _, ?_⟩
    rintro path hpath _ hsame rfl
    exact hnew (List.mem_singleton.mp hsame ▸ hpath)
  counted := by
    show s.journal.storedBytes + added = _
    rw [h.counted, ← hadded _ (.insert h.sorted turn _)]
    rfl

end Counted

/-! ### Recording a change -/

/-- `Record` writes a blob for a change. -/
def WritesBlob (s : EditState) (turn : Int) (effect : FileEffect) : Prop :=
  s.journal.directory ≠ [] ∧ effect.path ∉ (s.journal.entriesOf turn).map EditEntry.path ∧
    (newEntry s.journal.storedBytes effect).undoable = true ∧ effect.existed = true

instance (s : EditState) (turn : Int) (effect : FileEffect) : Decidable (WritesBlob s turn effect) :=
  inferInstanceAs (Decidable (_ ∧ _ ∧ _ ∧ _))

theorem any_path_iff {entries : List EditEntry} :
    (entries.any fun entry => entry.path = path) = true ↔ path ∈ entries.map EditEntry.path := by
  rw [List.any_eq_true, List.mem_map]
  simp only [decide_eq_true_eq]

/-- A blob written under a free name. -/
theorem keptBytes_write (entry : EditEntry) {content : Bytes} {fault : Option WriteFault}
    (hsorted : Assoc.Sorted s.journal.turns)
    (hfree : isKept s.journal.turns (blobName turn entry.path) = false)
    (hexisted : entry.existed = true)
    (hundoable : entry.undoable = (s.store.write (blobName turn entry.path) content fault).2)
    {turns' : List (Int × List EditEntry)}
    (hturns : Replaces s.journal.turns turn (s.journal.entriesOf turn ++ [entry]) turns') :
    Assoc.weight (isKept turns') List.length
        (s.store.write (blobName turn entry.path) content fault).1.files =
      keptBytes s + if entry.undoable then content.length else 0 := by
  have hkept : ∀ name, isKept turns' name =
      (isKept s.journal.turns name || keeps turn name entry) := hturns.isKept_push hsorted
  cases fault with
  | none =>
    have hundoable : entry.undoable = true := hundoable
    have hself : isKept turns' (blobName turn entry.path) = true := by
      simp [hkept, keeps, hundoable, hexisted]
    have hold : ∀ content, (blobName turn entry.path, content) ∈ s.store.files →
        isKept s.journal.turns (blobName turn entry.path) → content.length = 0 :=
      fun content _ hp => absurd hp (by simp [hfree])
    show Assoc.weight _ _ (Assoc.insert _ _ _) = _
    rw [Assoc.weight_insert s.store.sorted, if_pos hself, if_pos hundoable, Nat.add_comm, keptBytes,
      ← Assoc.weight_erase hold]
    refine congrArg (· + _) (Assoc.weight_congr fun file hfile => .inl ?_)
    have hne := (Assoc.mem_erase.mp hfile).2
    rw [hkept, keeps, decide_eq_false (Ne.symm hne), Bool.and_false, Bool.or_false]
  | some fault =>
    have hundoable : entry.undoable = false := hundoable
    have hsame : isKept turns' = isKept s.journal.turns := funext fun name => by
      rw [hkept, keeps, hundoable, Bool.false_and, Bool.false_and, Bool.or_false]
    rw [hsame, weight_write hfree, hundoable, if_neg Bool.false_ne_true]
    rfl

/-- A change that writes its blob under no other blob's name. -/
theorem Counted.record (h : Counted s) {effect : FileEffect} {fault : Option WriteFault}
    (hblob : WritesBlob s turn effect →
      isKept s.journal.turns (blobName turn effect.path) = false) :
    Counted (s.record turn effect fault) := by
  rw [EditState.record]
  dsimp only
  by_cases hclosed : s.journal.directory = []
  · rw [if_pos hclosed]
    exact h
  rw [if_neg hclosed]
  by_cases hfound :
      ((s.journal.entriesOf turn).any fun entry => entry.path = effect.path) = true
  · -- the turn has changed the file before
    rw [if_pos hfound]
    have hturns := Replaces.insert h.sorted turn
      (setAfterHash effect.path effect.afterHash (s.journal.entriesOf turn))
    refine ⟨hturns.sorted, hturns.paths h.paths ?_, h.counted.trans ?_⟩
    · rw [setAfterHash_eq_map_paths]
      exact h.paths turn
    · refine (Assoc.weight_congr fun file _ => .inl ?_).symm
      exact hturns.isKept_congr h.sorted (any_keeps_setAfterHash _ _ _)
  rw [if_neg hfound]
  rw [any_path_iff] at hfound
  by_cases hwrites : (newEntry s.journal.storedBytes effect).undoable = true ∧
      (newEntry s.journal.storedBytes effect).existed = true
  · rw [if_pos hwrites]
    have hfree := hblob ⟨hclosed, hfound, hwrites.1, hwrites.2⟩
    refine h.push hfound fun turns' hturns => ?_
    exact keptBytes_write { newEntry s.journal.storedBytes effect with
      undoable := (s.store.write (blobName turn effect.path) (effect.before.getD []) fault).2 }
      h.sorted hfree hwrites.2 rfl hturns
  · rw [if_neg hwrites]
    have hnone : ∀ name, keeps turn name (newEntry s.journal.storedBytes effect) = false :=
      fun name => by
        rw [← Bool.not_eq_true, keeps, Bool.and_eq_true, Bool.and_eq_true]
        exact fun hkeeps => hwrites hkeeps.1
    show Counted { s with
      journal := { s.journal with turns := _, storedBytes := s.journal.storedBytes + 0 } }
    refine h.push hfound fun turns' hturns => ?_
    have hkept : isKept turns' = isKept s.journal.turns := funext fun name => by
      rw [hturns.isKept_push h.sorted, hnone name, Bool.or_false]
    rw [hkept]
    rfl

/-- A change that might be undone and is listed as not undoable. -/
def Refused (s : EditState) (turn : Int) (effect : FileEffect) (fault : Option WriteFault) : Prop :=
  Eligible effect ∧ effect.path ∉ (s.journal.entriesOf turn).map EditEntry.path ∧
    ∃ entry ∈ (s.record turn effect fault).journal.entriesOf turn,
      entry.path = effect.path ∧ entry.undoable = false

theorem entriesOf_insert {journal : EditJournal} {entries : List EditEntry} {storedBytes : Nat} :
    entriesOf { journal with turns := Assoc.insert turn entries journal.turns, storedBytes } turn =
      entries := by
  rw [entriesOf, Assoc.lookup_insert_self]
  rfl

/-- A change is refused for the budget, or because its blob was not written. -/
theorem Refused.over {effect : FileEffect} {fault : Option WriteFault}
    (h : Refused s turn effect fault) :
    kUndoSessionBytes < s.journal.storedBytes + (effect.before.getD []).length ∨
      effect.existed = true ∧ fault ≠ none := by
  obtain ⟨heligible, hnew, entry, hentry, hpath, hundoable⟩ := h
  have hfound : ¬((s.journal.entriesOf turn).any fun entry => entry.path = effect.path) = true :=
    fun h => hnew (any_path_iff.mp h)
  have hlast : ∀ {last : EditEntry}, entry ∈ s.journal.entriesOf turn ++ [last] → entry = last := by
    intro last hmem
    rcases List.mem_append.mp hmem with hold | hlast
    · exact absurd (hpath ▸ List.mem_map_of_mem hold) hnew
    · exact List.mem_singleton.mp hlast
  rw [EditState.record] at hentry
  dsimp only at hentry
  by_cases hclosed : s.journal.directory = []
  · rw [if_pos hclosed] at hentry
    exact absurd (hpath ▸ List.mem_map_of_mem hentry) hnew
  rw [if_neg hclosed, if_neg hfound] at hentry
  by_cases hwrites : (newEntry s.journal.storedBytes effect).undoable = true ∧
      (newEntry s.journal.storedBytes effect).existed = true
  · rw [if_pos hwrites, entriesOf_insert] at hentry
    refine .inr ⟨hwrites.2, ?_⟩
    rintro rfl
    rw [hlast hentry] at hundoable
    exact absurd hundoable.symm Bool.false_ne_true
  · rw [if_neg hwrites] at hentry
    have hentry : entry ∈ s.journal.entriesOf turn ++ [newEntry s.journal.storedBytes effect] := by
      rwa [entriesOf, Assoc.lookup_insert_self] at hentry
    rw [hlast hentry] at hundoable
    have hover := of_decide_eq_false hundoable
    exact .inl (not_le.mp fun hle => hover ⟨heligible, hle⟩)

/-! ### Opening -/

/-- `Open` finds no turn and counts no byte. -/
def OpensEmpty (parse : Bytes → Option Json) (editFileBytes : Nat) (fault : Option Cause)
    (s : EditState) : Prop :=
  ∀ text, readRegularFile (s.store.node indexName) editFileBytes fault = .ok text →
    indexTurns ((parse text).getD .null) = [] ∧ listedBytes s.store = 0

theorem counted_empty (directory : Bytes) (files : Bytes → DiskNode) (store : EditStore) :
    Counted { journal := { directory }, files, store } where
  sorted := List.Pairwise.nil
  paths _ := List.Pairwise.nil
  counted := (Assoc.weight_eq_zero fun _ _ hkept => absurd hkept Bool.false_ne_true).symm

theorem counted_openJournal {parse : Bytes → Option Json} {fault : Option Cause}
    {directory : Bytes} (h : OpensEmpty parse editFileBytes fault s) :
    Counted (openJournal parse editFileBytes fault s directory) := by
  rw [openJournal]
  cases hread : readRegularFile (s.store.node indexName) editFileBytes fault with
  | error error => exact counted_empty directory s.files s.store
  | ok text =>
    obtain ⟨hturns, hbytes⟩ := h text hread
    dsimp only
    rw [hturns, hbytes]
    exact counted_empty directory s.files s.store

end EditState

/-! ### Runs -/

/-- What happens to a journal, its directory and the files it is about. -/
inductive UndoEvent where
  | record (turn : Int) (effect : FileEffect) (fault : Option WriteFault)
  | files (turn : Int) (editFileBytes : Nat) (io : EditIo)
  | revert (turn : Int) (path : Bytes) (editFileBytes : Nat) (io : EditIo)
  | openJournal (directory : Bytes) (editFileBytes : Nat) (fault : Option Cause)
  /-- someone changes a file -/
  | change (path : Bytes) (node : DiskNode)
  /-- a long diff is stored in the directory -/
  | storeDiff (name content : Bytes)

namespace UndoEvent

open EditJournal EditState

variable (displayPath : Bytes → Bytes) (parse : Bytes → Option Json)

def step [DoubleText] (s : EditState) : UndoEvent → EditState
  | record turn effect fault => s.record turn effect fault
  | files turn editFileBytes io => (s.filesOf displayPath editFileBytes io turn).2
  | revert turn path editFileBytes io => (s.revert displayPath editFileBytes io turn path).2
  | openJournal directory editFileBytes fault =>
    EditState.openJournal parse editFileBytes fault s directory
  | change path node => { s with files := Function.update s.files path node }
  | storeDiff name content => { s with store := s.store.set (lit "diff-" ++ name) content }

/-- The steps that keep the counter right: a blob takes no other blob's name,
no file is put back whose blob holds bytes, and no index is loaded from a
directory that holds any. -/
def Ok (s : EditState) : UndoEvent → Prop
  | record turn effect _ =>
    WritesBlob s turn effect → isKept s.journal.turns (blobName turn effect.path) = false
  | revert turn path editFileBytes io =>
    ∀ entry ∈ s.journal.entriesOf turn, picks displayPath path entry = true →
      Restorable editFileBytes io s turn entry →
      ∀ content, (blobName turn entry.path, content) ∈ s.store.files →
        isKept s.journal.turns (blobName turn entry.path) → content.length = 0
  | openJournal _ editFileBytes fault => OpensEmpty parse editFileBytes fault s
  | _ => True

variable {displayPath parse}

theorem counted_step [DoubleText] {s : EditState} (h : Counted s) {e : UndoEvent}
    (hok : e.Ok displayPath parse s) : Counted (e.step displayPath parse s) := by
  cases e with
  | record turn effect fault => exact h.record hok
  | files turn editFileBytes io => exact h.filesOf turn
  | revert turn path editFileBytes io => exact h.revert hok
  | openJournal directory editFileBytes fault => exact counted_openJournal hok
  | change path node => exact ⟨h.sorted, h.paths, h.counted⟩
  | storeDiff name content =>
    refine ⟨h.sorted, h.paths, h.counted.trans ?_⟩
    exact (Assoc.weight_insert_of_not s.store.sorted content (isKept_diff name)).symm

/-- **The counter is right**, and a change is refused only when the kept blobs
leave no room for it or its own blob could not be written, in every run whose
steps are `Ok`. -/
theorem storedBytes_eq_keptBytes [DoubleText] {s₀ s : EditState} (hfresh : s₀.journal = {})
    (h : Run (step displayPath parse) (fun s e => Ok displayPath parse s e) s₀ s) :
    s.journal.storedBytes = keptBytes s ∧
      ∀ turn effect fault, Refused s turn effect fault →
        kUndoSessionBytes < keptBytes s + (effect.before.getD []).length ∨
          effect.existed = true ∧ fault ≠ none := by
  have hstart : Counted s₀ := by
    obtain ⟨journal, files, store⟩ := s₀
    obtain rfl : journal = {} := hfresh
    exact counted_empty [] files store
  have hcounted : Counted s := h.invariant hstart fun s e hs hok => counted_step hs hok
  refine ⟨hcounted.counted, fun turn effect fault hrefused => ?_⟩
  rw [← hcounted.counted]
  exact hrefused.over

/-- A journal in "/d" over a file that holds "two". -/
def budgetStart : EditState :=
  { files := Function.update (fun _ => .absent) (lit "/w/a") (.regular (lit "two") 0o600) }

/-- The change that left it so. -/
def budgetChange : FileEffect :=
  { path := lit "/w/a", existed := true, before := some (lit "one"), afterHash := hashHex (lit "two") }

/-- The journal is opened and the change recorded. -/
def budgetEvents : List UndoEvent :=
  [.openJournal (lit "/d") 1048576 none, .record 1 budgetChange none]

theorem storedBytes_eq_keptBytes_recorded :
    (budgetEvents.foldl (@step id (fun _ => none) Json.bitsText)
        budgetStart).journal.storedBytes = 3 ∧
      keptBytes (budgetEvents.foldl (@step id (fun _ => none) Json.bitsText) budgetStart) = 3 := by
  have hopen : OpensEmpty (fun _ => none) 1048576 none budgetStart := nofun
  have hok : Run.AllOk (@step id (fun _ => none) Json.bitsText)
      (fun s e => Ok id (fun _ => none) s e) budgetStart budgetEvents :=
    ⟨hopen, fun _ => by decide, trivial⟩
  have hcount :=
    (@storedBytes_eq_keptBytes id (fun _ => none) Json.bitsText _ _ rfl (Run.of_allOk hok)).1
  have hstored : (budgetEvents.foldl (@step id (fun _ => none) Json.bitsText)
      budgetStart).journal.storedBytes = 3 := by decide
  exact ⟨hstored, hcount.symm.trans hstored⟩

/-- Putting the file back takes its blob away and leaves the counter. -/
theorem storedBytes_ne_keptBytes :
    ¬∀ s₀ s : EditState, s₀.journal = {} →
      Run (@step id (fun _ => none) Json.bitsText) (fun _ _ => True) s₀ s →
      s.journal.storedBytes = keptBytes s := by
  intro hall
  have hok : Run.AllOk (@step id (fun _ => none) Json.bitsText) (fun _ _ => True) budgetStart
      (budgetEvents ++ [.revert 1 [] 1048576 {}]) := Run.allOk_of_forall (fun _ _ _ => trivial) _
  have hcount := hall _ _ rfl (Run.of_allOk hok)
  revert hcount
  decide

end UndoEvent

end UAgent
