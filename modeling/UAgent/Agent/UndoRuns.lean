/-
UAgent/Agent/UndoRuns.lean

What an `EditJournal` gives back (`EditJournal::Revert`).  Undoing the newest
turn takes the layer it has of a file off the stack of `EditLayers`.

So undoing the turns newest first restores the file (`undo_restores`), unless
a turn left more bytes than an undo reads to see that the file is unchanged:
the tools write a file of any length, and `Holds` gives up on a long one
(`conflicts_of_long`).  And an undo that reports a conflict has left the file
alone, unless the file was replaced and only its directory could not be synced.
-/
import UAgent.Agent.EditLayers

namespace UAgent

open Bytes

namespace EditState

open EditJournal

variable {displayPath : Bytes → Bytes} {s : EditState} {turn : Int} {name path : Bytes}
  {editFileBytes : Nat} {io : EditIo}

/-! ### What a revert leaves alone -/

section Frame

variable {entries : List EditEntry} {only : Bytes}

theorem revertEntries_append (entries later : List EditEntry) :
    (revertEntries displayPath editFileBytes io turn only (entries ++ later) s).1 =
        (revertEntries displayPath editFileBytes io turn only entries s).1 ++
          (revertEntries displayPath editFileBytes io turn only later
            (revertEntries displayPath editFileBytes io turn only entries s).2.2).1 ∧
      (revertEntries displayPath editFileBytes io turn only (entries ++ later) s).2.2 =
        (revertEntries displayPath editFileBytes io turn only later
          (revertEntries displayPath editFileBytes io turn only entries s).2.2).2.2 := by
  induction entries generalizing s with
  | nil => exact ⟨rfl, rfl⟩
  | cons entry entries ih =>
    obtain ⟨hkept, hstate⟩ :=
      ih (s := settled displayPath editFileBytes io turn only s entry)
    rw [List.cons_append, revertEntries_cons_kept, revertEntries_cons_kept,
      revertEntries_cons_state, revertEntries_cons_state, hkept, hstate, List.append_assoc]
    exact ⟨rfl, rfl⟩

/-- A file no entry is of stays as it is. -/
theorem revertEntries_files (h : ∀ entry ∈ entries, entry.path ≠ path) :
    (revertEntries displayPath editFileBytes io turn only entries s).2.2.files path =
      s.files path := by
  induction entries generalizing s with
  | nil => rfl
  | cons entry entries ih =>
    rw [revertEntries_cons_state, ih fun other hmem => h other (List.mem_cons_of_mem entry hmem)]
    exact settled_files_of_ne (Ne.symm (h entry List.mem_cons_self))

/-- So does a blob no entry has. -/
theorem revertEntries_lookup (h : ∀ entry ∈ entries, blobName turn entry.path ≠ name) :
    Assoc.lookup name
        (revertEntries displayPath editFileBytes io turn only entries s).2.2.store.files =
      Assoc.lookup name s.store.files := by
  induction entries generalizing s with
  | nil => rfl
  | cons entry entries ih =>
    rw [revertEntries_cons_state, ih fun other hmem => h other (List.mem_cons_of_mem entry hmem),
      settled_store]
    split_ifs
    · rfl
    · refine (Assoc.lookup_erase _ _ _).trans (if_neg ?_)
      exact Ne.symm (h entry List.mem_cons_self)

end Frame

section Revert

variable [DoubleText] {only : Bytes}

theorem entriesOf_revert (t : Int) :
    (s.revert displayPath editFileBytes io turn only).2.journal.entriesOf t =
      if t = turn then
        (revertEntries displayPath editFileBytes io turn only (s.journal.entriesOf turn) s).1
      else s.journal.entriesOf t := by
  rw [revert]
  cases hlookup : Assoc.lookup turn s.journal.turns with
  | none =>
    have hnone : s.journal.entriesOf turn = [] := by rw [entriesOf, hlookup]; rfl
    rw [hnone]
    split_ifs with ht
    · rw [ht]
      exact hnone
    · rfl
  | some entries =>
    have hentries : s.journal.entriesOf turn = entries := by rw [entriesOf, hlookup]; rfl
    rw [hentries]
    dsimp only
    rw [revertEntries_journal]
    show (Assoc.lookup t (if _ then Assoc.erase turn s.journal.turns
      else Assoc.insert turn _ s.journal.turns)).getD [] = _
    by_cases hnone : (revertEntries displayPath editFileBytes io turn only entries s).1 = []
    · rw [if_pos hnone, Assoc.lookup_erase, hnone, entriesOf]
      split_ifs <;> rfl
    · rw [if_neg hnone, Assoc.lookup_insert, entriesOf]
      split_ifs <;> rfl

theorem files_revert :
    (s.revert displayPath editFileBytes io turn only).2.files =
      (revertEntries displayPath editFileBytes io turn only (s.journal.entriesOf turn)
        s).2.2.files := by
  rw [revert, entriesOf]
  cases Assoc.lookup turn s.journal.turns with
  | none => rfl
  | some entries => rfl

theorem lookup_revert (h : name ≠ indexName) :
    Assoc.lookup name (s.revert displayPath editFileBytes io turn only).2.store.files =
      Assoc.lookup name
        (revertEntries displayPath editFileBytes io turn only (s.journal.entriesOf turn)
          s).2.2.store.files := by
  have hset : ∀ (store : EditStore) (content : Bytes) (fault : Option WriteFault),
      Assoc.lookup name (store.write indexName content fault).1.files =
        Assoc.lookup name store.files := by
    intro store content fault
    have hwritten : Assoc.lookup name (store.set indexName content).files =
        Assoc.lookup name store.files := lookup_set.trans (if_neg h)
    cases fault with
    | none => exact hwritten
    | some fault =>
      show Assoc.lookup name
        (if fault.replaced then store.set indexName content else store).files = _
      split_ifs
      · exact hwritten
      · rfl
  rw [revert, entriesOf]
  cases Assoc.lookup turn s.journal.turns with
  | none => rfl
  | some entries => exact hset _ _ _

end Revert

/-! ### Undoing a turn -/

/-- Nothing fails on a file. -/
structure Faultless (io : EditIo) (path : Bytes) : Prop where
  read : io.read path = none
  blob : io.blob path = none
  remove : io.remove path = none
  write : io.write path = none

/-- What a node holds is within a read limit. -/
def Fits (cap : Nat) (node : DiskNode) : Prop :=
  ∀ content mode, node = .regular content mode → content.length ≤ cap

theorem readRegularFile_regular {content : Bytes} {mode cap : Nat} (h : content.length ≤ cap) :
    readRegularFile (.regular content mode) cap none = .ok content :=
  if_neg (not_lt.mpr h)

/-- An unchanged file is seen to be unchanged. -/
theorem holds_of_leaves {hash : Bytes} {after : DiskNode} (h : Leaves hash after)
    (hnode : (s.files path).unmoded = after.unmoded) (hfits : Fits editFileBytes after)
    (hread : io.read path = none) : holds editFileBytes io s.files path hash = true := by
  rcases after with - | ⟨content, mode⟩ | -
  · obtain rfl : hash = [] := h
    rw [holds, if_pos rfl, DiskNode.eq_absent_of_unmoded hnode.symm rfl]
    rfl
  · obtain rfl : hash = hashHex content := h
    have hne : hashHex content ≠ [] := fun hnil => by
      have hlength := length_hashHex content
      rw [hnil] at hlength
      exact absurd hlength (by decide)
    obtain ⟨mode', hregular⟩ := DiskNode.eq_regular_of_unmoded hnode.symm rfl
    rw [holds, if_neg hne, hregular, hread, readRegularFile_regular (hfits content mode rfl)]
    exact decide_eq_true rfl
  · exact h.elim

/-- A layer's entry is put back. -/
theorem putBack_of_shows {entry : EditEntry} {layer : Layer Int DiskNode}
    (h : Shows s path entry layer) (hundoable : entry.undoable = true)
    (hnode : (s.files path).unmoded = layer.after.unmoded) (hfits : Fits editFileBytes layer.after)
    (hio : Faultless io path) :
    (putBack editFileBytes io s layer.turn entry).2 = none ∧
      ((putBack editFileBytes io s layer.turn entry).1 path).unmoded = layer.before.unmoded := by
  obtain rfl := h.named
  have hholds := holds_of_leaves h.leaves hnode hfits hio.read
  rw [putBack, hundoable, hholds]
  simp only [Bool.true_eq_false, if_false]
  by_cases hexisted : entry.existed = true
  · obtain ⟨content, mode, hbefore, hlength, hlookup⟩ := h.before hundoable hexisted
    have hblob : s.store.node (blobName layer.turn entry.path) =
        .regular content kPrivateFileMode := by rw [EditStore.node, hlookup]
    rw [hexisted, if_neg Bool.noConfusion, hblob, hio.blob, readRegularFile_regular hlength,
      hio.write, hbefore]
    refine ⟨rfl, ?_⟩
    dsimp only
    rw [Function.update_self]
    rfl
  · rw [Bool.not_eq_true] at hexisted
    have habsent : layer.before = .absent := by
      by_contra hthere
      rw [h.existed.mpr hthere] at hexisted
      exact Bool.noConfusion hexisted
    rw [if_pos hexisted, hio.remove, habsent]
    refine ⟨rfl, ?_⟩
    dsimp only
    rw [Function.update_self]

namespace Layered

variable [DoubleText] {fresh : Int → Prop} {start : DiskNode} {layers : List (Layer Int DiskNode)}
  {only : Bytes}

/-- The other turns' entries show the same layers. -/
theorem shows_revert (h : Layered fresh path start s layers) {layer : Layer Int DiskNode}
    (hlayer : layer ∈ layers) (hturn : layer.turn ≠ turn) : ∃ entries entry later,
      (s.revert displayPath editFileBytes io turn only).2.journal.entriesOf layer.turn =
          entries ++ entry :: later ∧
        Shows (s.revert displayPath editFileBytes io turn only).2 path entry layer ∧
        ∀ other ∈ entries ++ later, hashHex other.path ≠ hashHex path := by
  obtain ⟨entries, entry, later, heq, hshows, hothers⟩ := h.shows layer hlayer
  have hlookup : Assoc.lookup (blobName layer.turn path)
        (s.revert displayPath editFileBytes io turn only).2.store.files =
      Assoc.lookup (blobName layer.turn path) s.store.files := by
    rw [lookup_revert blobName_ne_indexName, revertEntries_lookup]
    exact fun other _ hsame => hturn (blobName_eq hsame).1.symm
  refine ⟨entries, entry, later, ?_, ⟨hshows.named, hshows.existed, ?_, hshows.leaves⟩, hothers⟩
  · rw [entriesOf_revert, if_neg hturn, heq]
  · rw [hlookup]
    exact hshows.before

/-- A turn that did not change the file is undone. -/
theorem revert_other (h : Layered fresh path start s layers) (hfresh : fresh turn)
    (hturn : ∀ layer ∈ layers, layer.turn ≠ turn) :
    Layered fresh path start (s.revert displayPath editFileBytes io turn only).2 layers where
  node := by
    rw [files_revert, revertEntries_files (h.others turn hfresh hturn)]
    exact h.node
  shows layer hlayer := h.shows_revert hlayer (hturn layer hlayer)
  others t ht hnone entry hentry := by
    rw [entriesOf_revert] at hentry
    split_ifs at hentry with hsame
    · exact h.others turn hfresh hturn entry (revertEntries_kept_sublist.subset hentry)
    · exact h.others t ht hnone entry hentry

/-- The newest turn that changed the file is undone. -/
theorem revert_top {layer : Layer Int DiskNode} {older : List (Layer Int DiskNode)}
    (h : Layered fresh path start s (layer :: older))
    (hpicked : only = [] ∨ only = displayPath path ∨ only = path)
    (hundoable : ∀ entry ∈ s.journal.entriesOf layer.turn, entry.path = path →
      entry.undoable = true)
    (hfits : Fits editFileBytes layer.after) (hio : Faultless io path) :
    Layered fresh path start (s.revert displayPath editFileBytes io layer.turn only).2 older := by
  obtain ⟨now, ⟨rfl, hlt, hstacked⟩, hnode⟩ := h.node
  obtain ⟨entries, entry, later, heq, hshows, hothers⟩ := h.shows layer List.mem_cons_self
  have hbefore : ∀ other ∈ entries, hashHex other.path ≠ hashHex path := fun other hmem =>
    hothers other (List.mem_append_left _ hmem)
  have hafter : ∀ other ∈ later, hashHex other.path ≠ hashHex path := fun other hmem =>
    hothers other (List.mem_append_right _ hmem)
  -- the state in which the file's entry is looked at
  obtain ⟨mid, hmid⟩ : ∃ mid, mid =
      (revertEntries displayPath editFileBytes io layer.turn only entries s).2.2 := ⟨_, rfl⟩
  have hfile : mid.files path = s.files path := by
    rw [hmid]
    exact revertEntries_files fun other hmem hsame => hbefore other hmem (by rw [hsame])
  have hblob : Assoc.lookup (blobName layer.turn path) mid.store.files =
      Assoc.lookup (blobName layer.turn path) s.store.files := by
    rw [hmid]
    exact revertEntries_lookup fun other hmem hsame => hbefore other hmem (blobName_eq hsame).2
  have hback := putBack_of_shows (s := mid)
    ⟨hshows.named, hshows.existed, by rw [hblob]; exact hshows.before, hshows.leaves⟩
    (hundoable entry (heq ▸ by simp) hshows.named) (by rw [hfile]; exact hnode) hfits hio
  have hpicks : picks displayPath only entry = true := by
    rw [picks, hshows.named]
    simpa [or_assoc] using hpicked
  have hreason : reasonOf displayPath editFileBytes io layer.turn only mid entry = none := by
    rw [reasonOf, if_neg (by rw [hpicks]; exact Bool.noConfusion)]
    exact hback.1
  have hkept := @revertEntries_append displayPath s layer.turn editFileBytes io only entries
    (entry :: later)
  rw [← hmid, ← heq] at hkept
  refine ⟨⟨layer.before, hstacked, ?_⟩, fun other hmem => ?_, fun t ht hnone other hmem => ?_⟩
  · rw [files_revert, hkept.2, revertEntries_cons_state,
      revertEntries_files fun other hmem hsame => hafter other hmem (by rw [hsame]), settled_files,
      if_neg (by rw [hpicks]; exact Bool.noConfusion)]
    exact hback.2
  · exact h.shows_revert (List.mem_cons_of_mem layer hmem) (hlt other hmem).ne
  · rw [entriesOf_revert] at hmem
    split_ifs at hmem with hsame
    · rw [hkept.1, revertEntries_cons_kept, hreason, hpicks] at hmem
      simp only [Bool.true_eq_false, Option.isSome_none, Bool.false_eq_true, or_self, if_false,
        List.nil_append, List.mem_append] at hmem
      rcases hmem with hmem | hmem
      · exact fun hpath => hbefore other (revertEntries_kept_sublist.subset hmem) (by rw [hpath])
      · exact fun hpath => hafter other (revertEntries_kept_sublist.subset hmem) (by rw [hpath])
    · refine h.others t ht (fun top htop => ?_) other hmem
      rcases List.mem_cons.mp htop with rfl | htop
      · exact Ne.symm hsame
      · exact hnone top htop

end Layered

/-! ### A run of undos -/

/-- One `Revert`. -/
structure EditUndo where
  turn : Int
  path : Bytes := []
  editFileBytes : Nat
  io : EditIo := {}

def undo [DoubleText] (displayPath : Bytes → Bytes) (s : EditState) (u : EditUndo) : EditState :=
  (s.revert displayPath u.editFileBytes u.io u.turn u.path).2

/-- Changes in turns the journal does not know, recorded in the order of their
turns, and the undos of just these turns, newest first. -/
structure UndoSession (s : EditState) (changes : List EditChange) (undos : List EditUndo) :
    Prop where
  opened : s.journal.directory ≠ []
  fresh : ∀ c ∈ changes, s.journal.entriesOf c.turn = []
  ok : Run.AllOk change (fun s c => c.Ok s) s changes
  order : changes.Pairwise fun a b => a.turn ≤ b.turn
  newest : (undos.map EditUndo.turn).Pairwise (· > ·)
  turns : ∀ turn, turn ∈ undos.map EditUndo.turn ↔ turn ∈ changes.map EditChange.turn

/-- A file all of whose changes can be undone, and which each undo is about
without failing on it. -/
structure Undoable (displayPath : Bytes → Bytes) (s : EditState) (changes : List EditChange)
    (undos : List EditUndo) (path : Bytes) : Prop where
  entries : ∀ c ∈ changes, ∀ entry ∈ (changes.foldl change s).journal.entriesOf c.turn,
    entry.path = path → entry.undoable = true
  picked : ∀ u ∈ undos, u.path = [] ∨ u.path = displayPath path ∨ u.path = path
  io : ∀ u ∈ undos, Faultless u.io path

/-- What is left to undo of a file. -/
structure Awaits (changes : List EditChange) (path : Bytes) (start : DiskNode) (s : EditState)
    (layers : List (Layer Int DiskNode)) : Prop where
  layered : Layered (· ∈ changes.map EditChange.turn) path start s layers
  tracks : Tracks changes path layers
  undoable : ∀ turn ∈ changes.map EditChange.turn, ∀ entry ∈ s.journal.entriesOf turn,
    entry.path = path → entry.undoable = true

/-- One undo takes the turn's layer off. -/
theorem Awaits.undo [DoubleText] {changes : List EditChange} {start : DiskNode}
    {layers : List (Layer Int DiskNode)} (h : Awaits changes path start s layers) {u : EditUndo}
    (hturn : ∀ layer ∈ layers, layer.turn ≤ u.turn) (hmem : u.turn ∈ changes.map EditChange.turn)
    (hpicked : u.path = [] ∨ u.path = displayPath path ∨ u.path = path) (hio : Faultless u.io path)
    (hfits : ∀ node, leftBy changes u.turn path = some node → Fits u.editFileBytes node) :
    Awaits changes path start (s.undo displayPath u) (Layers.undo layers u.turn) where
  layered := by
    obtain ⟨now, hstacked, -⟩ := h.layered.node
    by_cases hexists : ∃ layer ∈ layers, layer.turn = u.turn
    · obtain ⟨layer, hlayer, heq⟩ := hexists
      obtain ⟨older, rfl⟩ := hstacked.eq_cons_of_mem hturn hlayer heq
      rw [Layers.undo, if_pos heq, EditState.undo, ← heq]
      refine h.layered.revert_top hpicked (h.undoable _ (heq ▸ hmem)) (hfits layer.after ?_) hio
      exact heq ▸ h.tracks layer hlayer
    · have hne : ∀ layer ∈ layers, layer.turn ≠ u.turn := fun layer hlayer heq =>
        hexists ⟨layer, hlayer, heq⟩
      rw [Layers.undo_of_ne hne]
      exact h.layered.revert_other hmem hne
  tracks layer hlayer := h.tracks layer (Layers.mem_of_mem_undo hlayer)
  undoable turn hchanged entry hentry := by
    rw [EditState.undo, entriesOf_revert] at hentry
    split_ifs at hentry with hsame
    · exact h.undoable u.turn hmem entry (revertEntries_kept_sublist.subset hentry)
    · exact h.undoable turn hchanged entry hentry

/-- **Undoing the turns newest first** restores a file that every turn left
within the limit its undo reads. -/
theorem undo_restores [DoubleText] {changes : List EditChange} {undos : List EditUndo}
    (h : UndoSession s changes undos) (hfile : Undoable displayPath s changes undos path)
    (hfits : ∀ u ∈ undos, ∀ node, leftBy changes u.turn path = some node →
      Fits u.editFileBytes node) :
    ((undos.foldl (undo displayPath) (changes.foldl change s)).files path).unmoded =
      (s.files path).unmoded := by
  have hstart : Layered (· ∈ changes.map EditChange.turn) path (s.files path) s [] :=
    layered_nil fun turn hturn => by
      obtain ⟨c, hc, rfl⟩ := List.mem_map.mp hturn
      exact h.fresh c hc
  obtain ⟨layers, hlayered, htracks⟩ := layered_changes changes [] hstart
    (fun _ hlayer => absurd hlayer List.not_mem_nil) h.opened h.ok
    (fun c hc => List.mem_map_of_mem hc) h.order
  have hawaits : Awaits changes path (s.files path) (changes.foldl change s) layers := by
    refine ⟨hlayered, htracks, fun turn hturn entry hentry hpath => ?_⟩
    obtain ⟨c, hc, rfl⟩ := List.mem_map.mp hturn
    exact hfile.entries c hc entry hentry hpath
  have hstacked : ∀ x layers, Awaits changes path (s.files path) x layers →
      ∃ now, Layers.Stacked (s.files path) now layers :=
    fun x layers hx => hx.layered.node.imp fun _ hnow => hnow.1
  have hnext : ∀ x layers, ∀ u ∈ undos, Awaits changes path (s.files path) x layers →
      (∀ layer ∈ layers, layer.turn ≤ EditUndo.turn u) →
      Awaits changes path (s.files path) (undo displayPath x u) (Layers.undo layers u.turn) :=
    fun x layers u hu hx hturn =>
      hx.undo hturn ((h.turns u.turn).mp (List.mem_map_of_mem hu)) (hfile.picked u hu)
        (hfile.io u hu) (hfits u hu)
  have hall : ∀ layer ∈ layers, layer.turn ∈ undos.map EditUndo.turn := fun layer hlayer => by
    obtain ⟨last, hlast, -⟩ := Option.map_eq_some_iff.mp (htracks layer hlayer)
    obtain ⟨hmem, hc⟩ := List.mem_filter.mp (List.mem_of_getLast? hlast)
    rw [h.turns, ← (of_decide_eq_true hc).1]
    exact List.mem_map_of_mem hmem
  have hend := Layers.undo_all hstacked hnext h.newest hawaits hall
  obtain ⟨now, hnow, hnode⟩ := hend.layered.node
  exact hnode.trans (congrArg DiskNode.unmoded hnow)

/-! ### Conflicts -/

/-- No write of a file fails once it has replaced the file. -/
def WritesWhole (io : EditIo) (path : Bytes) : Prop :=
  ∀ fault, io.write path = some fault → fault.replaced = false

theorem putBack_of_reason {entry : EditEntry} {reason : Bytes}
    (h : (putBack editFileBytes io s turn entry).2 = some reason)
    (hio : WritesWhole io entry.path) :
    (putBack editFileBytes io s turn entry).1 entry.path = s.files entry.path := by
  rw [putBack] at h ⊢
  split_ifs at h ⊢
  · rfl
  · rfl
  · cases hremove : io.remove entry.path with
    | none => simp [hremove] at h
    | some cause => rfl
  · cases hread : readRegularFile (s.store.node (blobName turn entry.path)) kUndoFileBytes
        (io.blob entry.path) with
    | error error => rfl
    | ok before =>
      cases hwrite : io.write entry.path with
      | none => simp [hread, hwrite, atomicWriteFile] at h
      | some fault => simp [atomicWriteFile, hio fault hwrite]

section Conflict

variable {entries : List EditEntry} {entry : EditEntry} {only : Bytes}

/-- **The loop of `Revert`**: an entry stays with a conflict, its file
untouched, or is gone since it could be put back. -/
theorem revertEntries_conflict (hpaths : (entries.map EditEntry.path).Nodup)
    (hmem : entry ∈ entries) (hpicks : picks displayPath only entry = true)
    (hio : WritesWhole io entry.path) :
    (entry ∈ (revertEntries displayPath editFileBytes io turn only entries s).1 ∧
        (∃ reason, (displayPath entry.path, reason) ∈
          (revertEntries displayPath editFileBytes io turn only entries s).2.1.conflicts) ∧
        (revertEntries displayPath editFileBytes io turn only entries s).2.2.files entry.path =
          s.files entry.path) ∨
      entry ∉ (revertEntries displayPath editFileBytes io turn only entries s).1 ∧
        Restorable editFileBytes io s turn entry := by
  by_cases hstays : entry ∈ (revertEntries displayPath editFileBytes io turn only entries s).1
  · refine .inl ⟨hstays, ?_⟩
    induction entries generalizing s with
    | nil => exact absurd hmem List.not_mem_nil
    | cons first entries ih =>
      rw [revertEntries_cons_kept] at hstays
      rw [revertEntries_cons_conflicts, revertEntries_cons_state]
      rcases List.mem_cons.mp hmem with rfl | htail
      · -- what stays of the rest is of other files
        have hother : ∀ other ∈ entries, other.path ≠ entry.path := fun other hother =>
          path_ne_of_mem_tail hpaths hother
        have hnot : entry ∉ (revertEntries displayPath editFileBytes io turn only entries
            (settled displayPath editFileBytes io turn only s entry)).1 := fun hmem =>
          hother entry (revertEntries_kept_sublist.subset hmem) rfl
        have hsome : (reasonOf displayPath editFileBytes io turn only s entry).isSome := by
          by_contra hnone
          rw [if_neg (by simp [hpicks, hnone])] at hstays
          exact hnot hstays
        obtain ⟨reason, hreason⟩ := Option.isSome_iff_exists.mp hsome
        refine ⟨⟨reason, List.mem_append_left _ (by simp [hreason])⟩, ?_⟩
        rw [reasonOf, if_neg (by simp [hpicks])] at hreason
        rw [revertEntries_files hother, settled_files, if_neg (by simp [hpicks])]
        exact putBack_of_reason hreason hio
      · have hne := path_ne_of_mem_tail hpaths htail
        have hstays : entry ∈ (revertEntries displayPath editFileBytes io turn only entries
            (settled displayPath editFileBytes io turn only s first)).1 := by
          rcases List.mem_append.mp hstays with hfirst | htail
          · split_ifs at hfirst
            · exact absurd (congrArg EditEntry.path (List.mem_singleton.mp hfirst)) hne
            · exact absurd hfirst List.not_mem_nil
          · exact htail
        obtain ⟨⟨reason, hreason⟩, hfile⟩ := ih (List.nodup_cons.mp hpaths).2 htail hstays
        exact ⟨⟨reason, List.mem_append_right _ hreason⟩,
          hfile.trans (settled_files_of_ne hne)⟩
  · exact .inr ⟨hstays, (restorable_of_gone hpaths hmem hstays).2⟩

end Conflict

/-- A revert reports a conflict about an entry and leaves both the entry and
its file as they were. -/
structure Conflicts [DoubleText] (displayPath : Bytes → Bytes) (editFileBytes : Nat) (io : EditIo)
    (s : EditState) (turn : Int) (only : Bytes) (entry : EditEntry) : Prop where
  reported : ∃ reason, (displayPath entry.path, reason) ∈
    (s.revert displayPath editFileBytes io turn only).1.conflicts
  stays : entry ∈ (s.revert displayPath editFileBytes io turn only).2.journal.entriesOf turn
  file : (s.revert displayPath editFileBytes io turn only).2.files entry.path = s.files entry.path

theorem conflicts_revert :
    ∀ [DoubleText] {only : Bytes}, (s.revert displayPath editFileBytes io turn only).1.conflicts =
      (revertEntries displayPath editFileBytes io turn only (s.journal.entriesOf turn)
        s).2.1.conflicts := by
  intro _ only
  rw [revert, entriesOf]
  cases Assoc.lookup turn s.journal.turns with
  | none => rfl
  | some entries => rfl

/-- No turn lists a file twice. -/
def ListsOnce (s : EditState) : Prop :=
  ∀ turn, ((s.journal.entriesOf turn).map EditEntry.path).Nodup

/-- **A revert that does not put a file back** reports a conflict and leaves
the file and its entry. -/
theorem conflicts_or_gone [DoubleText] (h : ListsOnce s) {entry : EditEntry} {only : Bytes}
    (hmem : entry ∈ s.journal.entriesOf turn) (hpicks : picks displayPath only entry = true)
    (hio : WritesWhole io entry.path) :
    Conflicts displayPath editFileBytes io s turn only entry ∨
      entry ∉ (s.revert displayPath editFileBytes io turn only).2.journal.entriesOf turn ∧
        Restorable editFileBytes io s turn entry := by
  rw [entriesOf_revert, if_pos rfl]
  rcases revertEntries_conflict (s := s) (h turn) hmem hpicks hio with
    ⟨hstays, ⟨reason, hreason⟩, hfile⟩ | hgone
  · refine .inl ⟨⟨reason, ?_⟩, ?_, ?_⟩
    · rw [conflicts_revert]
      exact hreason
    · rw [entriesOf_revert, if_pos rfl]
      exact hstays
    · rw [files_revert]
      exact hfile
  · exact .inr hgone

/-! ### A turn lists a file once -/

/-- What recording a change makes of its turn, whatever becomes of the blob. -/
theorem exists_record (s : EditState) (turn : Int) (effect : FileEffect) (fault : Option WriteFault) :
    ∃ entries : List EditEntry, (∀ t, (s.record turn effect fault).journal.entriesOf t =
        if t = turn then entries else s.journal.entriesOf t) ∧
      (entries.map EditEntry.path = (s.journal.entriesOf turn).map EditEntry.path ∨
        effect.path ∉ (s.journal.entriesOf turn).map EditEntry.path ∧
          entries.map EditEntry.path =
            (s.journal.entriesOf turn).map EditEntry.path ++ [effect.path]) := by
  have hinsert : ∀ (entries : List EditEntry) (t : Int),
      (Assoc.lookup t (Assoc.insert turn entries s.journal.turns)).getD [] =
        if t = turn then entries else s.journal.entriesOf t := fun entries t => by
    rw [Assoc.lookup_insert, entriesOf]
    split_ifs <;> rfl
  rw [record]
  dsimp only
  by_cases hclosed : s.journal.directory = []
  · rw [if_pos hclosed]
    refine ⟨s.journal.entriesOf turn, fun t => ?_, .inl rfl⟩
    split_ifs with ht
    · rw [ht]
    · rfl
  rw [if_neg hclosed]
  by_cases hfound : ((s.journal.entriesOf turn).any fun entry => entry.path = effect.path) = true
  · rw [if_pos hfound]
    exact ⟨_, hinsert _, .inl (setAfterHash_eq_map_paths _ _ _)⟩
  rw [if_neg hfound]
  rw [any_path_iff] at hfound
  by_cases hwrites : (newEntry s.journal.storedBytes effect).undoable = true ∧
      (newEntry s.journal.storedBytes effect).existed = true
  · rw [if_pos hwrites]
    exact ⟨_, hinsert _, .inr ⟨hfound, List.map_append⟩⟩
  · rw [if_neg hwrites]
    exact ⟨_, hinsert _, .inr ⟨hfound, List.map_append⟩⟩

theorem ListsOnce.record (h : ListsOnce s) (effect : FileEffect) (fault : Option WriteFault) :
    ListsOnce (s.record turn effect fault) := by
  intro t
  obtain ⟨entries, hentries, hpaths⟩ := exists_record s turn effect fault
  rw [hentries]
  split_ifs
  · rcases hpaths with hsame | ⟨hnew, hpushed⟩
    · rw [hsame]
      exact h turn
    · rw [hpushed]
      refine List.nodup_append.mpr ⟨h turn, List.pairwise_singleton _ _, ?_⟩
      rintro path hpath _ hlast rfl
      exact hnew (List.mem_singleton.mp hlast ▸ hpath)
  · exact h t

theorem ListsOnce.revert [DoubleText] (h : ListsOnce s) {only : Bytes} :
    ListsOnce (s.revert displayPath editFileBytes io turn only).2 := by
  intro t
  rw [entriesOf_revert]
  split_ifs
  · exact (h turn).sublist (revertEntries_kept_sublist.map _)
  · exact h t

end EditState

namespace UndoEvent

open EditJournal EditState

variable {displayPath : Bytes → Bytes} {parse : Bytes → Option Json}

/-- An index that is loaded lists a file of a turn once. -/
def LoadsOnce (parse : Bytes → Option Json) (s : EditState) : UndoEvent → Prop
  | openJournal directory editFileBytes fault =>
    ListsOnce (EditState.openJournal parse editFileBytes fault s directory)
  | _ => True

theorem listsOnce_step [DoubleText] {s : EditState} (h : ListsOnce s) {e : UndoEvent}
    (hok : e.LoadsOnce parse s) : ListsOnce (e.step displayPath parse s) := by
  cases e with
  | record turn effect fault => exact h.record effect fault
  | files turn editFileBytes io =>
    show ListsOnce (s.filesOf displayPath editFileBytes io turn).2
    rw [filesOf]
    cases Assoc.lookup turn s.journal.turns with
    | none => exact h
    | some entries => exact h
  | revert turn path editFileBytes io => exact h.revert
  | openJournal directory editFileBytes fault => exact hok
  | change path node => exact h
  | storeDiff name content => exact h

/-- **Undo.**  Recorded changes are undone newest first, file by file, when
each turn left no more of the file than its undo reads; and in any state a run
reaches, an entry a revert is about is in conflict, with its file untouched,
or goes because its file could be put back, when no write fails after it has
replaced the file. -/
theorem undo_restores_or_conflicts [DoubleText] :
    (∀ (s : EditState) (changes : List EditChange) (undos : List EditUndo) (path : Bytes),
      UndoSession s changes undos → Undoable displayPath s changes undos path →
      (∀ u ∈ undos, ∀ node, leftBy changes u.turn path = some node → Fits u.editFileBytes node) →
      ((undos.foldl (undo displayPath) (changes.foldl EditState.change s)).files path).unmoded =
        (s.files path).unmoded) ∧
    ∀ s₀ s : EditState, s₀.journal = {} →
      Run (step displayPath parse) (fun s e => LoadsOnce parse s e) s₀ s →
      ∀ (editFileBytes : Nat) (io : EditIo) (turn : Int) (only : Bytes),
        ∀ entry ∈ s.journal.entriesOf turn, picks displayPath only entry = true →
          WritesWhole io entry.path →
          Conflicts displayPath editFileBytes io s turn only entry ∨
            entry ∉ (s.revert displayPath editFileBytes io turn only).2.journal.entriesOf turn ∧
              Restorable editFileBytes io s turn entry := by
  refine ⟨fun s changes undos path h hfile hfits => undo_restores h hfile hfits,
    fun s₀ s hfresh hrun editFileBytes io turn only entry hentry hpicks hio => ?_⟩
  have hstart : ListsOnce s₀ := fun turn => by
    rw [EditJournal.entriesOf, hfresh]
    exact List.Pairwise.nil
  have honce : ListsOnce s := hrun.invariant hstart fun s e hs hok => listsOnce_step hs hok
  exact conflicts_or_gone honce hentry hpicks hio

/-- A file that held "one" is written in one turn and deleted in the next. -/
def undoStart : EditState :=
  { journal := { directory := lit "/d" }
    files := Function.update (fun _ => .absent) (lit "/w/a") (.regular (lit "one") 0o644) }

def undoChanges : List EditChange :=
  [{ turn := 1
     effect :=
      { path := lit "/w/a", existed := true, before := some (lit "one")
        afterHash := hashHex (lit "two"), beforeMode := some 0o644 }
     after := .regular (lit "two") 0o644 },
   { turn := 2
     effect :=
      { path := lit "/w/a", existed := true, before := some (lit "two"), afterHash := []
        beforeMode := some 0o644 }
     after := .absent }]

def undoUndos : List EditUndo :=
  [{ turn := 2, editFileBytes := 1048576 }, { turn := 1, editFileBytes := 1048576 }]

/-- The entry of the change of `budgetEvents`. -/
def budgetEntry : EditEntry :=
  { path := lit "/w/a", afterHash := hashHex (lit "two"), existed := true, undoable := true }

/-- The change is recorded, and then someone changes the file again. -/
def conflictEvents : List UndoEvent :=
  budgetEvents ++ [.change (lit "/w/a") (.regular (lit "new") 0o600)]

theorem undo_restores_or_conflicts_deleted :
    ((undoUndos.foldl (@undo Json.bitsText id) (undoChanges.foldl EditState.change
        undoStart)).files (lit "/w/a")).unmoded = .regular (lit "one") 0 ∧
      @Conflicts Json.bitsText id 1048576 {}
        (conflictEvents.foldl (@step id (fun _ => none) Json.bitsText) budgetStart) 1 []
        budgetEntry := by
  obtain ⟨hrestores, hconflicts⟩ :=
    @undo_restores_or_conflicts id (fun _ => none) Json.bitsText
  constructor
  · have hok : Run.AllOk EditState.change (fun s c => c.Ok s) undoStart undoChanges :=
      ⟨⟨by decide, by decide, fun content h => ⟨0o644, Option.some.inj h ▸ rfl⟩, rfl, nofun⟩,
        ⟨by decide, by decide, fun content h => ⟨0o644, Option.some.inj h ▸ rfl⟩, rfl,
          nofun⟩, trivial⟩
    have hsession : UndoSession undoStart undoChanges undoUndos :=
      ⟨by decide, by decide, hok, by decide, by decide, by simp [undoUndos, undoChanges, or_comm]⟩
    have hundos : ∀ u ∈ undoUndos, u = { turn := 2, editFileBytes := 1048576 } ∨
        u = { turn := 1, editFileBytes := 1048576 } := fun u hu => by simpa [undoUndos] using hu
    have hfile : Undoable id undoStart undoChanges undoUndos (lit "/w/a") := by
      refine ⟨by decide, by decide, fun u hu => ?_⟩
      rcases hundos u hu with rfl | rfl <;> exact ⟨rfl, rfl, rfl, rfl⟩
    refine hrestores undoStart undoChanges undoUndos (lit "/w/a") hsession hfile ?_
    intro u hu node hnode content mode hregular
    subst hregular
    rcases hundos u hu with rfl | rfl
    · have hleft : leftBy undoChanges 2 (lit "/w/a") = some .absent := by decide
      exact absurd (hnode.symm.trans hleft) (by simp)
    · have hleft : leftBy undoChanges 1 (lit "/w/a") = some (.regular (lit "two") 0o644) := by decide
      obtain ⟨rfl, -⟩ := DiskNode.regular.inj (Option.some.inj (hnode.symm.trans hleft))
      decide
  · have hok : Run.AllOk (@step id (fun _ => none) Json.bitsText)
        (fun s e => LoadsOnce (fun _ => none) s e) budgetStart conflictEvents :=
      ⟨fun _ => List.Pairwise.nil, trivial, trivial, trivial⟩
    have hchanged : holds 1048576 {}
        (conflictEvents.foldl (@step id (fun _ => none) Json.bitsText) budgetStart).files
        budgetEntry.path budgetEntry.afterHash = false := by decide
    refine (hconflicts budgetStart _ rfl (Run.of_allOk hok) 1048576 {} 1 [] budgetEntry
      (by decide) rfl nofun).resolve_right fun hgone => ?_
    exact Bool.noConfusion (hchanged.symm.trans hgone.2.2.1)

/-! ### A turn that leaves more than an undo reads -/

/-- A file that is longer than the limit is not seen to be unchanged. -/
theorem conflicts_of_long [DoubleText] {s : EditState} (h : ListsOnce s) {turn : Int}
    {entry : EditEntry} {only : Bytes} {io : EditIo} {editFileBytes mode : Nat} {content : Bytes}
    (hmem : entry ∈ s.journal.entriesOf turn) (hpicks : picks displayPath only entry = true)
    (hio : WritesWhole io entry.path) (hhash : entry.afterHash ≠ [])
    (hnode : s.files entry.path = .regular content mode) (hlong : editFileBytes < content.length) :
    Conflicts displayPath editFileBytes io s turn only entry := by
  refine (conflicts_or_gone h hmem hpicks hio).resolve_right fun hgone => ?_
  have hchanged : holds editFileBytes io s.files entry.path entry.afterHash = false := by
    have hread : readRegularFile (.regular content mode) editFileBytes (io.read entry.path) =
        .error (lit "file exceeds read limit") := if_pos hlong
    rw [holds, if_neg hhash, hnode, hread]
  exact Bool.noConfusion (hchanged.symm.trans hgone.2.2.1)

/-- A turn that makes a file. -/
def longChange (content : Bytes) : EditChange where
  turn := 1
  effect := { path := lit "/w/a", afterHash := hashHex content }
  after := .regular content 0o600

def longStart : EditState := { journal := { directory := lit "/d" } }

/-- Its undo, with the smallest limit there is. -/
def longUndo : EditUndo := { turn := 1, editFileBytes := 1048576 }

/-- Its entry, which can be undone. -/
def longEntry (content : Bytes) : EditEntry :=
  { path := lit "/w/a", afterHash := hashHex content, undoable := true }

variable (content : Bytes)

theorem entriesOf_longChange (turn : Int) :
    (longStart.change (longChange content)).journal.entriesOf turn =
      if turn = 1 then [longEntry content] else [] := by
  rw [entriesOf_change (by decide)]
  rfl

theorem undoSession_long : UndoSession longStart [longChange content] [longUndo] := by
  have hok : Run.AllOk EditState.change (fun s c => c.Ok s) longStart [longChange content] :=
    ⟨⟨DiskNode.noConfusion, ⟨nofun, fun hnot => absurd rfl hnot⟩, nofun, rfl, nofun⟩, trivial⟩
  refine ⟨by decide, fun c hc => ?_, hok, List.pairwise_singleton _ _,
    List.pairwise_singleton _ _, fun _ => Iff.rfl⟩
  rw [List.mem_singleton.mp hc]
  rfl

theorem undoable_long :
    Undoable id longStart [longChange content] [longUndo] (lit "/w/a") := by
  refine ⟨fun c hc entry hentry _ => ?_, fun u hu => ?_, fun u hu => ?_⟩
  · rw [List.mem_singleton.mp hc] at hentry
    have hlisted : entry ∈ [longEntry content] := by
      rwa [List.foldl_cons, List.foldl_nil, entriesOf_longChange,
        if_pos (show (longChange content).turn = 1 from rfl)] at hentry
    rw [List.mem_singleton.mp hlisted]
    rfl
  · rw [List.mem_singleton.mp hu]
    exact .inl rfl
  · rw [List.mem_singleton.mp hu]
    exact ⟨rfl, rfl, rfl, rfl⟩

/-- The file the turn made is still there after its undo, although nobody has
changed it. -/
theorem files_undo_long (hlong : 1048576 < content.length) :
    ((longStart.change (longChange content)).files (lit "/w/a")) = .regular content 0o600 ∧
      (@undo Json.bitsText id (longStart.change (longChange content)) longUndo).files
        (lit "/w/a") = .regular content 0o600 := by
  have honce : ListsOnce (longStart.change (longChange content)) := fun turn => by
    rw [entriesOf_longChange]
    split_ifs
    · exact List.pairwise_singleton _ _
    · exact List.Pairwise.nil
  have hhash : (longEntry content).afterHash ≠ [] := fun hnil => by
    have hlength := length_hashHex content
    rw [show hashHex content = [] from hnil] at hlength
    exact absurd hlength (by decide)
  have hmem : longEntry content ∈ (longStart.change (longChange content)).journal.entriesOf 1 := by
    rw [entriesOf_longChange]
    exact List.mem_singleton_self _
  have hnode : (longStart.change (longChange content)).files (longEntry content).path =
      .regular content 0o600 := by
    show Function.update longStart.files (lit "/w/a") (.regular content 0o600) (lit "/w/a") = _
    rw [Function.update_self]
  obtain ⟨-, -, hsame⟩ := @conflicts_of_long id Json.bitsText _ honce 1 (longEntry content) [] {}
    1048576 0o600 content hmem rfl nofun hhash hnode hlong
  exact ⟨hnode, hsame.trans hnode⟩

/-- So undo does not restore every file that can be undone. -/
theorem not_undo_restores :
    ¬∀ (s : EditState) (changes : List EditChange) (undos : List EditUndo) (path : Bytes),
      UndoSession s changes undos → Undoable id s changes undos path →
      ((undos.foldl (@undo Json.bitsText id) (changes.foldl EditState.change s)).files
        path).unmoded = (s.files path).unmoded := by
  intro hall
  obtain ⟨content, hlong⟩ : ∃ content : Bytes, 1048576 < content.length :=
    ⟨List.replicate (1048576 + 1) 0x61, by rw [List.length_replicate]; exact Nat.lt_succ_self _⟩
  have hrestored := hall longStart [longChange content] [longUndo] (lit "/w/a")
    (undoSession_long content) (undoable_long content)
  have hkept := (files_undo_long content hlong).2
  rw [List.foldl_cons, List.foldl_nil, List.foldl_cons, List.foldl_nil, hkept] at hrestored
  have habsent := DiskNode.eq_absent_of_unmoded hrestored.symm rfl
  simp only [reduceCtorEq] at habsent

end UndoEvent

end UAgent
